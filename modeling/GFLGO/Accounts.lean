import GFLGO.Objects

/-!
Signing up, logging in and changing the password. A name or a password stands for
all texts that are canonically equivalent to it: the code only stores and shows them,
and compares them with `==`, which does not tell those apart.
-/

set_option autoImplicit false

namespace GFLGO

structure SignupVC where
  usernameOutlet : String := ""
  passwordOutlet : String := ""

structure LoginVC where
  usernameOutlet : String := ""
  passwordOutlet : String := ""

structure NewPasswordVC where
  oldPasswordOutlet : String := ""
  newPasswordOutlet : String := ""

section
variable {K : Type}

/-- The scan stops at the first child with the name in the text field. -/
def SignupVC.checkIfUserExists (usernameOutlet : String) :
    List (String × FNode K) → Except Trap Bool
  | [] => .ok false
  | child :: rest => do
    let username ← asString .checkIfUserExists "username" child.2
    if usernameOutlet = username then .ok true
    else SignupVC.checkIfUserExists usernameOutlet rest

variable [Field K]

/-- The six writes of a new account. The first one stores a leaf at the node
that the other five turn into a record. -/
def SignupVC.userWrites (userID : String) (user : User K) : List (Write K) :=
  [setValue ["users",userID] (.int user.userID),
   setValue ["users",userID,"username"] (.string user.username),
   setOptional ["users",userID,"password"] (user.password.map .string),
   setValue ["users",userID,"health"] (.double user.health),
   setValue ["users",userID,"power"] (.double user.power),
   setValue ["users",userID,"totalExp"] (.int user.totalExp)]

def SignupVC.addUserToFirebase (username passwordOutlet : String) (snapshot : FNode K) :
    Except Trap (User K × List (Write K)) := do
  let userID := stringOfInt snapshot.numChildren
  let id ← unwrap (.userID .addUserToFirebase) (intOfString userID)
  let user := User.init username (some passwordOutlet) id 50 3.2 10
  .ok (user,SignupVC.userWrites userID user)

def signedUp (username password : String) (snapshot : FNode K) : User K :=
  User.init username (some password) snapshot.numChildren 50 3.2 10

variable [LinearOrder K] [FloorRing K]

/-- Every child is cast in full before it is compared. -/
def LoginVC.loginIfValid (usernameText passwordText : String) :
    List (String × FNode K) → Except Trap (Option (User K))
  | [] => .ok none
  | child :: rest => do
    let userID := intOfString child.1
    let username ← asString .loginIfValid "username" child.2
    let password ← asString .loginIfValid "password" child.2
    let health ← asDouble .loginIfValid "health" child.2
    let power ← asDouble .loginIfValid "power" child.2
    let totalExp ← asInt .loginIfValid "totalExp" child.2
    if username = usernameText ∧ password = passwordText then do
      let userID ← unwrap (.userID .loginIfValid) userID
      .ok (some (User.init username (some password) userID health power totalExp))
    else LoginVC.loginIfValid usernameText passwordText rest

end

/-- `snapshot.value as! String` for the password's own snapshot. -/
def NewPasswordVC.truePassword {K : Type} : FNode K → Except Trap String
  | .leaf (.string s) => .ok s
  | _ => .error (.cast .changeIfValidPassword "password")

end GFLGO
