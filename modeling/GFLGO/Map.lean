import Mathlib.Algebra.Field.Rat
import GFLGO.Async
import GFLGO.Objects

/-!
The map screen: where the player stands, the annotations around, and the enemies
that the timer and the Add Enemy button spawn.
-/

set_option autoImplicit false

namespace GFLGO

/-- What the map takes from the system: distances, the cosine and `String(x)`. -/
structure Platform (K : Type) where
  distance : Coordinate K → Coordinate K → K
  cos : K → K
  pi : K
  string : K → String

def planePlatform : Platform ℚ :=
  { distance := fun a b =>
      111000 * max (max (a.latitude-b.latitude) (b.latitude-a.latitude))
        (max (a.longitude-b.longitude) (b.longitude-a.longitude))
    cos := fun _ => 1
    pi := 355/113
    string := fun x => stringOfInt x.floor ++ ".0" }

def sampleDraw : Draw ℚ :=
  { randomChangeX := 3
    randomChangeY := 4
    random2 := 50
    time := 1500000000
    randomName := "Aegis" }

/-- All screens of one tab bar hold the same `User` object; it is kept here. -/
structure MapVC (K : Type) where
  user : User K
  userLocation : Option (Coordinate K) := none
  firstCenter : Bool := true
  centerCoordinate : Option (Coordinate K) := none
  enemyAnnotations : List (Enemy K) := []
  userAnnotations : List (User K) := []
  selectedEnemy : Option (Enemy K) := none
  enemyCalloutHidden : Bool := true

/-- Snapshots the map has asked for. -/
inductive MapRead (K : Type) where
  | didUpdateLocations (currCoordinate : Coordinate K)
  | findEnemiesAroundUser
  | findPlayersAroundUser
  | getNumberOfEnemiesAroundUser
  | addEnemyToFirebase (enemy : Enemy K)

inductive MapEvent (K : Type) where
  | viewWillAppear
  | viewDidDisappear
  | didUpdateLocations (locations : List (Coordinate K))
  | centerAction
  | addEnemyAction (d : Draw K)
  | timerTick
  | didSelect (i : Nat)
  | touchesBegan (onCallout : Bool)

abbrev MapReaction (K : Type) := Async.Reaction (MapVC K) (MapRead K) (Write K) (Note K)

namespace MapVC

section
variable {K : Type}

def centerMap (m : MapVC K) : Except Trap (MapVC K) := do
  let userLocation ← unwrap .userLocation m.userLocation
  .ok { m with centerCoordinate := some userLocation }

/-- Clears the map at once and asks for what will fill it again. -/
def setUpAnnotations (m : MapVC K) : MapReaction K :=
  { locals := { m with enemyAnnotations := [], userAnnotations := [] }
    reads := [.findEnemiesAroundUser,.findPlayersAroundUser] }

/-- Assigning `userLocation` runs its `didSet`. -/
def setUserLocation (location : Coordinate K) (m : MapVC K) : Except Trap (MapReaction K) :=
  let m := { m with userLocation := some location }
  if m.firstCenter then do
    let m ← m.centerMap
    let r := m.setUpAnnotations
    .ok { r with locals := { r.locals with firstCenter := false } }
  else .ok { locals := m }

def didUpdateLocations (locations : List (Coordinate K)) (m : MapVC K) :
    Except Trap (MapReaction K) := do
  let currCoordinate ← unwrap .noLocations locations.getLast?
  let r ← m.setUserLocation currCoordinate
  let user := { r.locals.user with
    latitude := some currCoordinate.latitude
    longitude := some currCoordinate.longitude }
  .ok { r with
    locals := { r.locals with user }
    reads := r.reads ++ [.didUpdateLocations currCoordinate] }

def viewWillAppear (m : MapVC K) : MapReaction K :=
  let r : MapReaction K := if m.firstCenter then { locals := m } else m.setUpAnnotations
  { r with locals := { r.locals with enemyCalloutHidden := true } }

def centerAction (m : MapVC K) : Except Trap (MapReaction K) := do
  let m ← m.centerMap
  .ok m.setUpAnnotations

def didSelect (i : Nat) (m : MapVC K) : MapVC K :=
  match m.enemyAnnotations[i]? with
  | some enemy => { m with selectedEnemy := some enemy, enemyCalloutHidden := false }
  | none => m

def touchesBegan (onCallout : Bool) (m : MapVC K) : MapVC K :=
  if onCallout then m else { m with enemyCalloutHidden := true }

/-- The second draw is repeated until it differs from the first, so it can be
any number from 1 to 100. -/
def successfulWithPercent (percent : Int) (d : Draw K) : Bool := d.random2 ≤ percent

def getUniqueEnemyID (p : Platform K) (d : Draw K) (user : User K) : String :=
  let time := p.string d.time
  let newTime := String.ofList (time.toList.map (fun c => if c = '.' then 'd' else c))
  "u" ++ stringOfInt user.userID ++ "e" ++ newTime

def enemyWrites (enemy : Enemy K) : List (Write K) :=
  [setValue ["enemies",enemy.identifier] (.string enemy.identifier),
   setOptional ["enemies",enemy.identifier,"name"] (enemy.name.map .string),
   setValue ["enemies",enemy.identifier,"health"] (.double enemy.health),
   setValue ["enemies",enemy.identifier,"power"] (.double enemy.power),
   setValue ["enemies",enemy.identifier,"latitude"] (.double enemy.latitude),
   setValue ["enemies",enemy.identifier,"longitude"] (.double enemy.longitude)]

def locationWrites (user : User K) (currCoordinate : Coordinate K) : List (Write K) :=
  let userID := stringOfInt user.userID
  [setValue ["users",userID,"latitude"] (.double currCoordinate.latitude),
   setValue ["users",userID,"longitude"] (.double currCoordinate.longitude)]

end

section
variable {K : Type} [Field K]

def getRandomCoordinateAroundUser (p : Platform K) (d : Draw K) (current : Coordinate K) :
    Coordinate K :=
  let latChange := d.randomChangeY * 0.00000900776
  let longChange := (d.randomChangeX * 0.00000900776) / p.cos (p.pi * current.latitude / 180)
  { latitude := current.latitude + latChange
    longitude := current.longitude + longChange }

/-- The annotation is on the map before anything is stored. -/
def spawnEnemy (p : Platform K) (d : Draw K) (m : MapVC K) : Except Trap (MapReaction K) := do
  let userLocation ← unwrap .userLocation m.userLocation
  let enemyCoord := getRandomCoordinateAroundUser p d userLocation
  let enemyID := getUniqueEnemyID p d m.user
  let newEnemy := Enemy.init 30 enemyCoord enemyID 2 d.randomName
  .ok {
    locals := { m with enemyAnnotations := m.enemyAnnotations ++ [newEnemy] }
    reads := [.addEnemyToFirebase newEnemy] }

variable [LinearOrder K]

/-- The name drawn by the constructor is overwritten by the stored one. -/
def findEnemiesAroundUser (p : Platform K) (userLocation : Option (Coordinate K))
    (randomName : String) : List (String × FNode K) → Except Trap (List (Enemy K))
  | [] => .ok []
  | child :: rest => do
    let enemyID := child.1
    let enemyName ← asString .findEnemiesAroundUser "name" child.2
    let latitude ← asDouble .findEnemiesAroundUser "latitude" child.2
    let longitude ← asDouble .findEnemiesAroundUser "longitude" child.2
    let enemyHealth ← asDouble .findEnemiesAroundUser "health" child.2
    let enemyPower ← asDouble .findEnemiesAroundUser "power" child.2
    let userLoc ← unwrap .userLocation userLocation
    let enemyLoc := { latitude, longitude }
    let enemies ← findEnemiesAroundUser p userLocation randomName rest
    if p.distance enemyLoc userLoc ≤ 150 then
      let enemy := Enemy.init enemyHealth enemyLoc enemyID enemyPower randomName
      .ok ({ enemy with name := some enemyName } :: enemies)
    else .ok enemies

def getNumberOfEnemiesAroundUser (p : Platform K) (userLocation : Option (Coordinate K)) :
    List (String × FNode K) → Except Trap Int
  | [] => .ok 0
  | child :: rest => do
    let latitude ← asDouble .getNumberOfEnemiesAroundUser "latitude" child.2
    let longitude ← asDouble .getNumberOfEnemiesAroundUser "longitude" child.2
    let userLoc ← unwrap .userLocation userLocation
    let count ← getNumberOfEnemiesAroundUser p userLocation rest
    if p.distance { latitude, longitude } userLoc ≤ 100 then .ok (count+1) else .ok count

variable [FloorRing K]

/-- The child with the caller's own key is skipped before any cast. -/
def findPlayersAroundUser (p : Platform K) (self : User K)
    (userLocation : Option (Coordinate K)) :
    List (String × FNode K) → Except Trap (List (User K))
  | [] => .ok []
  | child :: rest => do
    let userID := intOfString child.1
    if userID = some self.userID then findPlayersAroundUser p self userLocation rest
    else do
      let username ← asString .findPlayersAroundUser "username" child.2
      let health ← asDouble .findPlayersAroundUser "health" child.2
      let power ← asDouble .findPlayersAroundUser "power" child.2
      let totalExp ← asInt .findPlayersAroundUser "totalExp" child.2
      let latitude ← asDouble .findPlayersAroundUser "latitude" child.2
      let longitude ← asDouble .findPlayersAroundUser "longitude" child.2
      let userLoc ← unwrap .userLocation userLocation
      if p.distance { latitude, longitude } userLoc ≤ 20 then do
        let userID ← unwrap (.userID .findPlayersAroundUser) userID
        let otherUser := User.init username none userID health power totalExp
        let users ← findPlayersAroundUser p self userLocation rest
        .ok ({ otherUser with latitude := some latitude, longitude := some longitude } :: users)
      else findPlayersAroundUser p self userLocation rest

def onEvent (p : Platform K) (e : MapEvent K) (m : MapVC K) : Except Trap (MapReaction K) :=
  match e with
  | .viewWillAppear => .ok m.viewWillAppear
  | .viewDidDisappear => .ok { locals := m }
  | .didUpdateLocations locations => m.didUpdateLocations locations
  | .centerAction => m.centerAction
  | .addEnemyAction d => m.spawnEnemy p d
  | .timerTick => .ok { locals := m, reads := [.getNumberOfEnemiesAroundUser] }
  | .didSelect i => .ok { locals := m.didSelect i }
  | .touchesBegan onCallout => .ok { locals := m.touchesBegan onCallout }

def onRead (p : Platform K) (q : MapRead K) (snapshot : FNode K) (d : Draw K) (m : MapVC K) :
    Except Trap (MapReaction K) :=
  match q with
  | .didUpdateLocations currCoordinate =>
    .ok {
      locals := m
      writes := locationWrites m.user currCoordinate
      notes := [.locationWritten m.user.userID] }
  | .findEnemiesAroundUser => do
    let enemies ← findEnemiesAroundUser p m.userLocation d.randomName snapshot.children
    .ok { locals := { m with enemyAnnotations := m.enemyAnnotations ++ enemies } }
  | .findPlayersAroundUser => do
    let players ← findPlayersAroundUser p m.user m.userLocation snapshot.children
    .ok { locals := { m with userAnnotations := m.userAnnotations ++ players } }
  | .getNumberOfEnemiesAroundUser => do
    let numEnemies ← getNumberOfEnemiesAroundUser p m.userLocation snapshot.children
    if numEnemies < 20 ∧ successfulWithPercent (20-numEnemies) d then m.spawnEnemy p d
    else .ok { locals := m }
  | .addEnemyToFirebase enemy => .ok { locals := m, writes := enemyWrites enemy }

end

end MapVC

end GFLGO
