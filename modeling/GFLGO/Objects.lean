import GFLGO.Database

/-!
The objects the screens hand to each other, and what the app leaves on record
while it runs.
-/

set_option autoImplicit false

namespace GFLGO

structure Coordinate (K : Type) where
  latitude : K
  longitude : K
  deriving DecidableEq, Repr

structure User (K : Type) where
  username : String
  password : Option String
  userID : Int
  health : K
  power : K
  totalExp : Int
  exp : Int
  level : Int
  latitude : Option K := none
  longitude : Option K := none
  deriving DecidableEq, Repr

structure Enemy (K : Type) where
  identifier : String
  name : Option String
  latitude : K
  longitude : K
  health : K
  power : K
  deriving DecidableEq, Repr

/-- What is random, or read off the clock, while one callback runs. -/
structure Draw (K : Type) where
  randomChangeX : K
  randomChangeY : K
  random2 : Int
  time : K
  randomName : String

/-- Alerts, segues and the calls the properties count. Taps on Create Account
are numbered on each device, so that a signup can be named. -/
inductive Note (K : Type) where
  | userAlreadyExists (tap : Nat)
  | goToLogin (tap : Nat) (username : String)
  | addUserToFirebase (tap : Nat) (user : User K)
  | tabBarSegue (user : User K)
  | couldNotVerify
  | passwordChanged (userID oldPassword newPassword : String)
  | incorrectPassword
  | locationWritten (userID : Int)
  | addExperience (userID amount : Int) (identifier : String)
  deriving DecidableEq, Repr

section
variable {K : Type}

/-- Swift's `%` and `/` truncate. -/
def User.init (username : String) (password : Option String) (userID : Int) (health power : K)
    (totalExp : Int) : User K :=
  { username, password, userID, health, power, totalExp
    exp := totalExp.tmod 5
    level := totalExp.tdiv 5 }

def User.addExperience (amount : Int) (user : User K) : User K × Write K :=
  let totalExp := user.totalExp + amount
  ({ user with totalExp, exp := totalExp.tmod 5, level := totalExp.tdiv 5 },
    setValue ["users",stringOfInt user.userID,"totalExp"] (.int totalExp))

def Enemy.init (health : K) (location : Coordinate K) (identifier : String) (power : K)
    (randomName : String) : Enemy K :=
  { identifier, health, power
    latitude := location.latitude
    longitude := location.longitude
    name := some randomName }

end

end GFLGO
