import GFLGO.Scans

/-!
What the scans of the map keep of a snapshot: the children stored within a
radius of the player.
-/

set_option autoImplicit false

namespace GFLGO

section
variable {K : Type} [Field K]

/-- The coordinates stored in a child, when both are numbers. -/
def storedCoordinate (child : FNode K) : Option (Coordinate K) :=
  match asDouble .findEnemiesAroundUser "latitude" child,
    asDouble .findEnemiesAroundUser "longitude" child with
  | .ok latitude, .ok longitude => some { latitude, longitude }
  | _, _ => none

theorem asDouble_eq_ok_congr {reader reader' : Reader} {field : String} {child : FNode K} {x : K}
    (h : asDouble reader field child = .ok x) : asDouble reader' field child = .ok x := by
  unfold asDouble at h ⊢
  split at h
  · exact h
  · exact h
  · contradiction

theorem storedCoordinate_of_ok {reader : Reader} {child : FNode K} {latitude longitude : K}
    (hlat : asDouble reader "latitude" child = .ok latitude)
    (hlong : asDouble reader "longitude" child = .ok longitude) :
    storedCoordinate child = some { latitude, longitude } := by
  rw [storedCoordinate,asDouble_eq_ok_congr hlat,asDouble_eq_ok_congr hlong]

variable [LinearOrder K]

def isNear (p : Platform K) (radius : K) (location : Coordinate K) (child : FNode K) : Bool :=
  match storedCoordinate child with
  | some c => p.distance c location ≤ radius
  | none => false

theorem isNear_of_ok (p : Platform K) (radius : K) (location : Coordinate K) {reader : Reader}
    {child : FNode K} {latitude longitude : K}
    (hlat : asDouble reader "latitude" child = .ok latitude)
    (hlong : asDouble reader "longitude" child = .ok longitude) :
    isNear p radius location child =
      decide (p.distance { latitude, longitude } location ≤ radius) := by
  rw [isNear,storedCoordinate_of_ok hlat hlong]

theorem of_isNear {p : Platform K} {radius : K} {location : Coordinate K} {child : FNode K}
    (h : isNear p radius location child = true) : ∃ latitude longitude,
      asDouble .findEnemiesAroundUser "latitude" child = .ok latitude ∧
      asDouble .findEnemiesAroundUser "longitude" child = .ok longitude ∧
      p.distance { latitude, longitude } location ≤ radius := by
  simp only [isNear,storedCoordinate] at h
  split at h
  · next c hc =>
    split at hc
    · next latitude longitude hlat hlong =>
      cases hc
      exact ⟨latitude,longitude,hlat,hlong,by simpa using h⟩
    · contradiction
  · contradiction

/-- The children that a scan of the map keeps. Without a location it keeps none. -/
def nearChildren (p : Platform K) (radius : K) (location : Option (Coordinate K))
    (cs : List (String × FNode K)) : List (String × FNode K) :=
  match location with
  | some c => cs.filter (fun child => isNear p radius c child.2)
  | none => []

section
variable {p : Platform K} {radius : K} {location : Option (Coordinate K)}
  {cs : List (String × FNode K)}

theorem nearChildren_sublist : (nearChildren p radius location cs).Sublist cs := by
  cases location with
  | none => exact List.nil_sublist cs
  | some c => exact List.filter_sublist

theorem nodup_nearChildren (h : (cs.map Prod.fst).Nodup) :
    ((nearChildren p radius location cs).map Prod.fst).Nodup :=
  h.sublist (nearChildren_sublist.map Prod.fst)

end

structure Decodes (child : String × FNode K) (enemy : Enemy K) : Prop where
  identifier : enemy.identifier = child.1
  name : ∃ name, enemy.name = some name ∧
    child.2.getImmediateChild "name" = .leaf (.string name)
  latitude : asDouble .findEnemiesAroundUser "latitude" child.2 = .ok enemy.latitude
  longitude : asDouble .findEnemiesAroundUser "longitude" child.2 = .ok enemy.longitude
  health : asDouble .findEnemiesAroundUser "health" child.2 = .ok enemy.health
  power : asDouble .findEnemiesAroundUser "power" child.2 = .ok enemy.power

theorem findEnemiesAroundUser_eq_ok {p : Platform K} {location : Option (Coordinate K)}
    {randomName : String} {cs : List (String × FNode K)} {enemies : List (Enemy K)}
    (h : MapVC.findEnemiesAroundUser p location randomName cs = .ok enemies) :
    (∀ c ∈ cs, EnemyFields c.2) ∧
      List.Forall₂ Decodes (nearChildren p 150 location cs) enemies := by
  induction cs generalizing enemies with
  | nil =>
    cases h
    cases location <;> exact ⟨by simp,.nil⟩
  | cons child rest ih =>
    obtain ⟨name,hname,h⟩ := bind_eq_ok.mp h
    obtain ⟨latitude,hlat,h⟩ := bind_eq_ok.mp h
    obtain ⟨longitude,hlong,h⟩ := bind_eq_ok.mp h
    obtain ⟨health,hhealth,h⟩ := bind_eq_ok.mp h
    obtain ⟨power,hpower,h⟩ := bind_eq_ok.mp h
    obtain ⟨userLoc,hloc,h⟩ := bind_eq_ok.mp h
    obtain ⟨others,hrest,h⟩ := bind_eq_ok.mp h
    obtain ⟨hfields,hall⟩ := ih hrest
    have hname' := asString_eq_ok.mp hname
    rw [unwrap_eq_ok] at hloc
    refine ⟨List.forall_mem_cons.mpr ⟨⟨⟨name,hname'⟩,holdsNumber_of_asDouble hlat,
      holdsNumber_of_asDouble hlong,holdsNumber_of_asDouble hhealth,
      holdsNumber_of_asDouble hpower⟩,hfields⟩,?_⟩
    have hnear := isNear_of_ok p 150 userLoc hlat hlong
    simp only [nearChildren,hloc] at hall ⊢
    split at h
    · next hd =>
      cases h
      rw [List.filter_cons_of_pos (by simpa [hnear] using hd)]
      exact .cons ⟨rfl,⟨name,rfl,hname'⟩,hlat,hlong,hhealth,hpower⟩ hall
    · next hd =>
      cases h
      rw [List.filter_cons_of_neg (by simpa [hnear] using hd)]
      exact hall

theorem findEnemiesAroundUser_of_fields {p : Platform K} {c : Coordinate K} {randomName : String}
    {cs : List (String × FNode K)} (h : ∀ c ∈ cs, EnemyFields c.2) :
    ∃ enemies, MapVC.findEnemiesAroundUser p (some c) randomName cs = .ok enemies := by
  cases hr : MapVC.findEnemiesAroundUser p (some c) randomName cs with
  | ok enemies => exact ⟨enemies,rfl⟩
  | error t =>
    rcases findEnemiesAroundUser_eq_error hr with ⟨_,_,child,hc,hn⟩ | ⟨_,hn⟩
    · exact absurd (h child hc) hn
    · contradiction

omit [LinearOrder K] in
theorem identifiers_of_decodes {cs : List (String × FNode K)} {enemies : List (Enemy K)}
    (h : List.Forall₂ Decodes cs enemies) : enemies.map Enemy.identifier = cs.map Prod.fst := by
  induction h with
  | nil => rfl
  | cons hd _ ih => rw [List.map_cons,List.map_cons,ih,hd.identifier]

theorem getNumberOfEnemiesAroundUser_eq_ok {p : Platform K} {location : Option (Coordinate K)}
    {cs : List (String × FNode K)} {n : Int}
    (h : MapVC.getNumberOfEnemiesAroundUser p location cs = .ok n) :
    (∀ c ∈ cs, CountFields c.2) ∧ n = (nearChildren p 100 location cs).length := by
  induction cs generalizing n with
  | nil =>
    cases h
    cases location <;> exact ⟨by simp,rfl⟩
  | cons child rest ih =>
    obtain ⟨latitude,hlat,h⟩ := bind_eq_ok.mp h
    obtain ⟨longitude,hlong,h⟩ := bind_eq_ok.mp h
    obtain ⟨userLoc,hloc,h⟩ := bind_eq_ok.mp h
    obtain ⟨count,hrest,h⟩ := bind_eq_ok.mp h
    obtain ⟨hfields,hcount⟩ := ih hrest
    rw [unwrap_eq_ok] at hloc
    refine ⟨List.forall_mem_cons.mpr ⟨⟨holdsNumber_of_asDouble hlat,
      holdsNumber_of_asDouble hlong⟩,hfields⟩,?_⟩
    have hnear := isNear_of_ok p 100 userLoc hlat hlong
    simp only [nearChildren,hloc] at hcount ⊢
    split at h
    · next hd =>
      cases h
      rw [List.filter_cons_of_pos (by simpa [hnear] using hd),List.length_cons,hcount]
      push_cast
      rfl
    · next hd =>
      cases h
      rw [List.filter_cons_of_neg (by simpa [hnear] using hd),hcount]

theorem getNumberOfEnemiesAroundUser_of_fields {p : Platform K} {c : Coordinate K}
    {cs : List (String × FNode K)} (h : ∀ c ∈ cs, CountFields c.2) :
    MapVC.getNumberOfEnemiesAroundUser p (some c) cs =
      .ok ((nearChildren p 100 (some c) cs).length : Int) := by
  cases hr : MapVC.getNumberOfEnemiesAroundUser p (some c) cs with
  | ok n => rw [(getNumberOfEnemiesAroundUser_eq_ok hr).2]
  | error t =>
    rcases getNumberOfEnemiesAroundUser_eq_error hr with ⟨_,_,child,hc,hn⟩ | ⟨_,hn⟩
    · exact absurd (h child hc) hn
    · contradiction

variable [FloorRing K]

/-- Everybody but the player who looks. -/
def otherChildren (self : User K) (cs : List (String × FNode K)) : List (String × FNode K) :=
  cs.filter (fun child => intOfString child.1 ≠ some self.userID)

structure DecodesPlayer (child : String × FNode K) (user : User K) : Prop where
  userID : intOfString child.1 = some user.userID
  latitude : ∃ x, user.latitude = some x ∧
    asDouble .findPlayersAroundUser "latitude" child.2 = .ok x
  longitude : ∃ x, user.longitude = some x ∧
    asDouble .findPlayersAroundUser "longitude" child.2 = .ok x

theorem findPlayersAroundUser_decodes {p : Platform K} {self : User K}
    {location : Option (Coordinate K)} {cs : List (String × FNode K)} {users : List (User K)}
    (h : MapVC.findPlayersAroundUser p self location cs = .ok users) :
    List.Forall₂ DecodesPlayer (nearChildren p 20 location (otherChildren self cs)) users := by
  induction cs generalizing users with
  | nil =>
    cases h
    cases location <;> exact .nil
  | cons child rest ih =>
    simp only [MapVC.findPlayersAroundUser] at h
    split at h
    · next hself =>
      rw [otherChildren,List.filter_cons_of_neg (by simpa using hself)]
      exact ih h
    · next hself =>
      obtain ⟨username,_,h⟩ := bind_eq_ok.mp h
      obtain ⟨health,_,h⟩ := bind_eq_ok.mp h
      obtain ⟨power,_,h⟩ := bind_eq_ok.mp h
      obtain ⟨totalExp,_,h⟩ := bind_eq_ok.mp h
      obtain ⟨latitude,hlat,h⟩ := bind_eq_ok.mp h
      obtain ⟨longitude,hlong,h⟩ := bind_eq_ok.mp h
      obtain ⟨userLoc,hloc,h⟩ := bind_eq_ok.mp h
      rw [unwrap_eq_ok] at hloc
      have hnear := isNear_of_ok p 20 userLoc hlat hlong
      rw [otherChildren,List.filter_cons_of_pos (by simpa using hself)]
      simp only [nearChildren,hloc] at ih ⊢
      split at h
      · next hd =>
        obtain ⟨userID,hid,h⟩ := bind_eq_ok.mp h
        obtain ⟨others,hrest,h⟩ := bind_eq_ok.mp h
        cases h
        rw [List.filter_cons_of_pos (by simpa [hnear] using hd)]
        exact .cons ⟨unwrap_eq_ok.mp hid,⟨latitude,rfl,hlat⟩,⟨longitude,rfl,hlong⟩⟩
          (ih (hloc ▸ hrest))
      · next hd =>
        rw [List.filter_cons_of_neg (by simpa [hnear] using hd)]
        exact ih (hloc ▸ h)

theorem findPlayersAroundUser_of_fields {p : Platform K} {self : User K} {c : Coordinate K}
    {cs : List (String × FNode K)} (hf : ∀ child ∈ otherChildren self cs, PlayerFields child.2)
    (hk : ∀ child ∈ nearChildren p 20 (some c) (otherChildren self cs),
      intOfString child.1 ≠ none) :
    ∃ users, MapVC.findPlayersAroundUser p self (some c) cs = .ok users := by
  induction cs with
  | nil => exact ⟨[],rfl⟩
  | cons child rest ih =>
    by_cases hself : intOfString child.1 = some self.userID
    · rw [otherChildren,List.filter_cons_of_neg (by simpa using hself)] at hf hk
      simpa [MapVC.findPlayersAroundUser,hself] using ih hf hk
    · rw [otherChildren,List.filter_cons_of_pos (by simpa using hself)] at hf hk
      obtain ⟨⟨⟨username,hu⟩,hhealth,hpower,⟨totalExp,hexp⟩,hlat,hlong⟩,hfields⟩ :=
        List.forall_mem_cons.mp hf
      obtain ⟨health,hhealth⟩ := asDouble_of_holdsNumber .findPlayersAroundUser hhealth
      obtain ⟨power,hpower⟩ := asDouble_of_holdsNumber .findPlayersAroundUser hpower
      obtain ⟨latitude,hlat⟩ := asDouble_of_holdsNumber .findPlayersAroundUser hlat
      obtain ⟨longitude,hlong⟩ := asDouble_of_holdsNumber .findPlayersAroundUser hlong
      have hexp : asInt .findPlayersAroundUser "totalExp" child.2 = .ok totalExp :=
        asInt_eq_ok_congr hexp
      have hnear := isNear_of_ok p 20 c hlat hlong
      simp only [MapVC.findPlayersAroundUser,if_neg hself,asString_eq_ok.mpr hu,hhealth,hpower,
        hexp,hlat,hlong,unwrap_some,bind,
        Except.bind]
      simp only [nearChildren] at hk ih
      split
      · next hd =>
        rw [List.filter_cons_of_pos (by simpa [hnear] using hd)] at hk
        obtain ⟨hid,hkeys⟩ := List.forall_mem_cons.mp hk
        obtain ⟨userID,hid⟩ := Option.ne_none_iff_exists'.mp hid
        obtain ⟨others,hrest⟩ := ih hfields hkeys
        exact ⟨_,by simp only [hid,unwrap_some,hrest]; rfl⟩
      · next hd =>
        rw [List.filter_cons_of_neg (by simpa [hnear] using hd)] at hk
        exact ih hfields hk

end

end GFLGO
