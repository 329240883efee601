import Mathlib.Data.Rat.Floor
import GFLGO.Async
import GFLGO.Accounts

/-!
The navigation stack above the login screen, and the spawn timers. A login that
succeeds pushes a tab bar, whose map starts a timer; the settings screen copies
the timer when it loads, and its Logout row invalidates the copy and pops.
-/

set_option autoImplicit false

namespace GFLGO

open Runs Async

inductive Tab where
  | map
  | user
  | settings
  deriving DecidableEq, Repr

/-- The tab bar of one login. `settingsTimer` is there once its settings screen is. -/
structure TabBar (K : Type) where
  user : User K
  timer : Nat
  selected : Tab := .map
  settingsTimer : Option Nat := none

inductive Screen (K : Type) where
  | tabBarVC (t : TabBar K)
  | gameViewController
  | newPasswordVC

/-- The screens pushed above the login screen, the top one first, and the timers
that have not been invalidated. -/
structure Navigation (K : Type) where
  loginVC : LoginVC := {}
  pushed : List (Screen K) := []
  timers : List Nat := []
  scheduled : Nat := 0

inductive NavigationEvent where
  | editLogin (username password : String)
  | loginAction
  | selectTab (tab : Tab)
  | battleAction
  | escapeToMap
  | newPasswordSegue
  | back
  | passwordChangedOK
  | logout

/-- A pending `loginIfValid`. -/
structure LoginRead where
  usernameText : String
  passwordText : String

inductive NavigationTrap where
  | login (t : Trap)
  | timer

abbrev NavigationReaction (K : Type) := Reaction (Navigation K) LoginRead (Write K) (Note K)

abbrev NavigationProcess (K : Type) := Process (Navigation K) LoginRead NavigationTrap

abbrev NavigationInput (K : Type) := Input NavigationEvent (FNode K) Unit

section
variable {K : Type}

/-- The settings screen loads when it is first shown. -/
def TabBar.select (tab : Tab) (t : TabBar K) : TabBar K :=
  let t := { t with selected := tab }
  if tab = .settings ∧ t.settingsTimer = none then { t with settingsTimer := some t.timer } else t

def Screen.tabBar : Screen K → Option (TabBar K)
  | .tabBarVC t => some t
  | _ => none

def Screen.isNewPasswordVC : Screen K → Bool
  | .newPasswordVC => true
  | _ => false

end

namespace Navigation

section
variable {K : Type}

def tabBars (n : Navigation K) : List (TabBar K) := n.pushed.filterMap Screen.tabBar

def push (screen : Screen K) (n : Navigation K) : Navigation K :=
  { n with pushed := screen :: n.pushed }

def popViewController (n : Navigation K) : Navigation K := { n with pushed := n.pushed.tail }

/-- The map of a new tab bar loads with it and starts a timer that repeats. -/
def tabBarSegue (user : User K) (n : Navigation K) : Navigation K :=
  { n.push (.tabBarVC { user, timer := n.scheduled }) with
    timers := n.timers ++ [n.scheduled]
    scheduled := n.scheduled+1 }

def invalidate (timer : Nat) (n : Navigation K) : Navigation K :=
  { n with timers := n.timers.filter (fun t => t ≠ timer) }

/-- An event for a screen that is not on top does nothing. -/
def onEvent (e : NavigationEvent) (n : Navigation K) :
    Except NavigationTrap (NavigationReaction K) :=
  let idle : NavigationReaction K := { locals := n }
  match e, n.pushed with
  | .editLogin username password, [] =>
    .ok { locals := { n with loginVC := ⟨username,password⟩ } }
  | .loginAction, [] =>
    .ok { locals := n, reads := [⟨n.loginVC.usernameOutlet,n.loginVC.passwordOutlet⟩] }
  | .selectTab tab, .tabBarVC t :: rest =>
    .ok { locals := { n with pushed := .tabBarVC (t.select tab) :: rest } }
  | .battleAction, .tabBarVC t :: _ =>
    if t.selected = .map then .ok { locals := n.push .gameViewController } else .ok idle
  | .escapeToMap, .gameViewController :: _ => .ok { locals := n.popViewController }
  | .newPasswordSegue, .tabBarVC t :: _ =>
    if t.selected = .settings then .ok { locals := n.push .newPasswordVC } else .ok idle
  | .back, .newPasswordVC :: _ => .ok { locals := n.popViewController }
  -- the alert covers everything; its action pops whatever is on top below it
  | .passwordChangedOK, pushed =>
    if pushed.any Screen.isNewPasswordVC then .ok { locals := n.popViewController } else .ok idle
  | .logout, .tabBarVC t :: _ =>
    if t.selected = .settings then
      match t.settingsTimer with
      | some timer => .ok { locals := (n.invalidate timer).popViewController }
      | none => .error .timer
    else .ok idle
  | _, _ => .ok idle

variable [Field K] [LinearOrder K] [FloorRing K]

def onRead (q : LoginRead) (snapshot : FNode K) (n : Navigation K) :
    Except NavigationTrap (NavigationReaction K) :=
  match LoginVC.loginIfValid q.usernameText q.passwordText snapshot.children with
  | .error t => .error (.login t)
  | .ok (some user) => .ok { locals := n.tabBarSegue user, notes := [.tabBarSegue user] }
  | .ok none => .ok { locals := n, notes := [.couldNotVerify] }

def program : Program (Navigation K) NavigationEvent LoginRead (FNode K) Unit (Write K) (Note K)
    NavigationTrap :=
  { onEvent := onEvent, onRead := fun q snapshot _ n => n.onRead q snapshot }

def step : NavigationInput K → NavigationProcess K → Option (NavigationProcess K) :=
  Process.step program

end

def start (K : Type) : NavigationProcess K := { locals := {} }

section
variable {K : Type}

/-- At most one tab bar, and a timer for each. -/
structure OneSession (n : Navigation K) : Prop where
  one : n.tabBars.length ≤ 1
  timers : n.timers.length = n.tabBars.length

structure LoggedOut (n : Navigation K) : Prop where
  tabBars : n.tabBars = []
  timers : n.timers = []
  login : n.pushed = []

def ReachesLogout (s : NavigationProcess K) : Prop :=
  s.trap = none ∧ ∃ t rest, s.locals.pushed = .tabBarVC t :: rest ∧ t.selected = .settings

variable [Field K] [LinearOrder K] [FloorRing K]

/-- One login, one session, one timer: in every state the inputs lead to, and
right after every Logout. -/
structure OneLogin (inps : List (NavigationInput K)) : Prop where
  session : ∀ as s, as <+: inps → run step as (start K) = some s → OneSession s.locals
  logout : ∀ as s s', as ++ [.event .logout] <+: inps → run step as (start K) = some s →
    ReachesLogout s → step (.event .logout) s = some s' → LoggedOut s'.locals

/-- A login callback that succeeds finds no tab bar on the stack. -/
def LoginAlone : NavigationInput K → NavigationProcess K → Prop
  | .event _, _ => True
  | .deliver i snapshot _, s => ∀ q user, s.reads[i]? = some q →
    LoginVC.loginIfValid q.usernameText q.passwordText snapshot.children = .ok (some user) →
    s.locals.tabBars = []

/-- The stacks of a single session: its tab bar lies at the bottom and its
timer is the only one. -/
inductive SingleSession (n : Navigation K) : Prop
  | loggedOut (hp : n.pushed = []) (ht : n.timers = [])
  | loggedIn {above : List (Screen K)} {t : TabBar K} (hp : n.pushed = above ++ [.tabBarVC t])
    (ho : ∀ screen ∈ above, screen.tabBar = none) (ht : n.timers = [t.timer])
    (hl : t.settingsTimer = none ∨ t.settingsTimer = some t.timer)
    (hs : t.selected = .settings → t.settingsTimer = some t.timer)

section
variable {n : Navigation K}

omit [Field K] [LinearOrder K] [FloorRing K]

theorem SingleSession.oneSession (h : SingleSession n) : OneSession n := by
  cases h with
  | loggedOut hp ht => exact ⟨by simp [tabBars,hp],by simp [tabBars,hp,ht]⟩
  | @loggedIn above t hp ho ht hl hs =>
    have htabs : n.tabBars = [t] := by
      rw [tabBars,hp,List.filterMap_append,List.filterMap_eq_nil_iff.mpr ho]
      rfl
    exact ⟨by simp [htabs],by simp [htabs,ht]⟩

theorem SingleSession.of_tabBars (h : SingleSession n) (hn : n.tabBars = []) :
    n.pushed = [] ∧ n.timers = [] := by
  cases h with
  | loggedOut hp ht => exact ⟨hp,ht⟩
  | loggedIn hp ho ht hl hs => simp [tabBars,hp,Screen.tabBar] at hn

theorem SingleSession.of_tabBar_top (h : SingleSession n) {t : TabBar K} {rest : List (Screen K)}
    (hp : n.pushed = .tabBarVC t :: rest) : rest = [] ∧ n.timers = [t.timer] ∧
      (t.settingsTimer = none ∨ t.settingsTimer = some t.timer) ∧
      (t.selected = .settings → t.settingsTimer = some t.timer) := by
  cases h with
  | loggedOut hp' ht => simp [hp] at hp'
  | @loggedIn above t' hp' ho ht hl hs =>
    rw [hp] at hp'
    cases above with
    | nil =>
      cases hp'
      exact ⟨rfl,ht,hl,hs⟩
    | cons x above =>
      cases hp'
      have := ho (.tabBarVC t) (by simp)
      contradiction

theorem SingleSession.pop (h : SingleSession n) {screen : Screen K} {rest : List (Screen K)}
    (hp : n.pushed = screen :: rest) (hn : screen.tabBar = none) :
    SingleSession n.popViewController := by
  cases h with
  | loggedOut hp' ht => simp [hp] at hp'
  | @loggedIn above t hp' ho ht hl hs =>
    rw [hp] at hp'
    cases above with
    | nil =>
      cases hp'
      contradiction
    | cons x above =>
      cases hp'
      refine .loggedIn (show _ = above ++ _ by simp [popViewController,hp]) ?_ ht hl hs
      exact fun y hy => ho y (List.mem_cons_of_mem _ hy)

theorem SingleSession.top_of_newPasswordVC (h : SingleSession n)
    (hany : n.pushed.any Screen.isNewPasswordVC = true) :
    ∃ screen rest, n.pushed = screen :: rest ∧ screen.tabBar = none := by
  cases h with
  | loggedOut hp ht => simp [hp] at hany
  | @loggedIn above t hp ho ht hl hs =>
    cases above with
    | nil => simp [hp,Screen.isNewPasswordVC] at hany
    | cons x above => exact ⟨x,_,hp,ho x (by simp)⟩

theorem SingleSession.push (h : SingleSession n) {t : TabBar K} {rest : List (Screen K)}
    (hp : n.pushed = .tabBarVC t :: rest) {screen : Screen K} (hn : screen.tabBar = none) :
    SingleSession (n.push screen) := by
  obtain ⟨rfl,ht,hl,hs⟩ := h.of_tabBar_top hp
  exact .loggedIn (show _ = [screen] ++ _ by simp [Navigation.push,hp]) (by simpa using hn) ht hl hs

theorem SingleSession.select (h : SingleSession n) {t : TabBar K} {rest : List (Screen K)}
    (hp : n.pushed = .tabBarVC t :: rest) (tab : Tab) :
    SingleSession { n with pushed := .tabBarVC (t.select tab) :: rest } := by
  obtain ⟨rfl,ht,hl,hs⟩ := h.of_tabBar_top hp
  refine .loggedIn (t := t.select tab) (show _ = [] ++ _ from rfl) (by simp) ?_ ?_ ?_
  · simp only [TabBar.select]
    split <;> exact ht
  · simp only [TabBar.select]
    split
    · exact Or.inr rfl
    · exact hl
  · simp only [TabBar.select]
    split
    · exact fun _ => rfl
    · next hn => exact fun htab => hl.resolve_left (fun hnone => hn ⟨htab,hnone⟩)

theorem SingleSession.logout (h : SingleSession n) {t : TabBar K} {rest : List (Screen K)}
    (hp : n.pushed = .tabBarVC t :: rest) :
    LoggedOut (n.invalidate t.timer).popViewController := by
  obtain ⟨rfl,ht,_,_⟩ := h.of_tabBar_top hp
  have hempty : (n.invalidate t.timer).popViewController.pushed = [] := by
    simp [popViewController,invalidate,hp]
  exact ⟨by rw [tabBars,hempty]; rfl,by simp [popViewController,invalidate,ht],hempty⟩

theorem SingleSession.onEvent (h : SingleSession n) {e : NavigationEvent}
    {r : NavigationReaction K} (he : n.onEvent e = .ok r) : SingleSession r.locals := by
  unfold Navigation.onEvent at he
  split at he
  · next hp =>
    cases he
    exact .loggedOut hp (h.of_tabBars (by simp [tabBars,hp])).2
  · cases he
    exact h
  · next hp =>
    cases he
    exact h.select hp _
  · next hp =>
    split at he
    · cases he
      exact h.push hp rfl
    · cases he
      exact h
  · next hp =>
    cases he
    exact h.pop hp rfl
  · next hp =>
    split at he
    · cases he
      exact h.push hp rfl
    · cases he
      exact h
  · next hp =>
    cases he
    exact h.pop hp rfl
  · split at he
    · next hany =>
      cases he
      obtain ⟨screen,rest,hp,hn⟩ := h.top_of_newPasswordVC hany
      exact h.pop hp hn
    · cases he
      exact h
  · next t rest hp =>
    split at he
    · next hsel =>
      obtain ⟨_,_,_,hs⟩ := h.of_tabBar_top hp
      rw [hs hsel] at he
      cases he
      have hout := h.logout hp
      exact .loggedOut hout.login hout.timers
    · cases he
      exact h
  · cases he
    exact h

theorem SingleSession.absorb {s : NavigationProcess K} (h : SingleSession s.locals)
    {r : Except NavigationTrap (NavigationReaction K)}
    (hr : ∀ r', r = .ok r' → SingleSession r'.locals) : SingleSession (s.absorb r).locals := by
  cases r with
  | error t => exact h
  | ok r' => exact hr r' rfl

end

theorem SingleSession.step {inp : NavigationInput K} {s s' : NavigationProcess K}
    (h : SingleSession s.locals) (hc : LoginAlone inp s)
    (hs : Navigation.step inp s = some s') : SingleSession s'.locals := by
  cases inp with
  | event e =>
    simp only [Navigation.step,Process.step] at hs
    split at hs
    · contradiction
    · cases hs
      exact h.absorb (fun r' hr' => h.onEvent hr')
  | deliver i snapshot d =>
    simp only [Navigation.step,Process.step] at hs
    split at hs
    · next q hq =>
      cases hs
      refine SingleSession.absorb (s := { s with reads := s.reads.eraseIdx i }) h (fun r' hr' => ?_)
      simp only [program,onRead] at hr'
      split at hr'
      · contradiction
      · next user hl =>
        cases hr'
        obtain ⟨hp,ht⟩ := h.of_tabBars (hc q user hq hl)
        exact .loggedIn (show _ = [] ++ _ by simp [tabBarSegue,Navigation.push,hp]; rfl) (by simp)
          (by simp [tabBarSegue,ht]) (Or.inl rfl) (by simp)
      · cases hr'
        exact h
    · contradiction

theorem singleSession_of_loginAlone {inps : List (NavigationInput K)}
    {s : NavigationProcess K} (h : Along step LoginAlone inps (start K))
    (hr : run step inps (start K) = some s) : SingleSession s.locals :=
  run_invariant (I := fun s => SingleSession s.locals) step (fun _ _ _ hi hc hs => hi.step hc hs)
    (.loggedOut rfl rfl) h hr

theorem loginAlone_of_oneSession {inp : NavigationInput K} {s : NavigationProcess K}
    (h : ∀ s', step inp s = some s' → OneSession s'.locals) : LoginAlone inp s := by
  cases inp with
  | event e => trivial
  | deliver i snapshot d =>
    intro q user hq hl
    have hstep : step (.deliver i snapshot d) s = some
        { locals := s.locals.tabBarSegue user, reads := s.reads.eraseIdx i, trap := s.trap } := by
      simp [step,Process.step,hq,program,onRead,hl,Process.absorb]
    have hone := (h _ hstep).one
    have htabs : (s.locals.tabBarSegue user).tabBars =
        { user, timer := s.locals.scheduled } :: s.locals.tabBars := rfl
    rw [htabs,List.length_cons] at hone
    exact List.eq_nil_of_length_eq_zero (by omega)

theorem SingleSession.loggedOut_of_logout {s s' : NavigationProcess K}
    (h : SingleSession s.locals) (hl : ReachesLogout s)
    (hs : Navigation.step (.event .logout) s = some s') : LoggedOut s'.locals := by
  obtain ⟨htrap,t,rest,hp,hsel⟩ := hl
  obtain ⟨_,_,_,hsettings⟩ := h.of_tabBar_top hp
  have hlogout : s.locals.onEvent .logout =
      .ok { locals := (s.locals.invalidate t.timer).popViewController } := by
    simp [Navigation.onEvent,hp,hsel,hsettings hsel]
  simp only [Navigation.step,Process.step,htrap,program,hlogout,Process.absorb] at hs
  cases hs
  exact h.logout hp

/-- There is one login, one session and one timer exactly when no login
succeeds while a tab bar is on the stack. -/
theorem oneLogin_iff_loginAlone (inps : List (NavigationInput K)) :
    OneLogin inps ↔ Along step LoginAlone inps (start K) := by
  constructor
  · intro h
    refine along_of_forall_prefix step (fun as inp s hp hr => ?_)
    refine loginAlone_of_oneSession (fun s' hs => h.session (as ++ [inp]) s' hp ?_)
    exact (run_append_eq_some step).mpr ⟨s,hr,(run_cons_eq_some step).mpr ⟨s',hs,rfl⟩⟩
  · intro h
    have hpart {as : List (NavigationInput K)} {s : NavigationProcess K} (hp : as <+: inps)
        (hr : run step as (start K) = some s) : SingleSession s.locals := by
      obtain ⟨bs,rfl⟩ := hp
      exact singleSession_of_loginAlone ((along_append step hr).mp h).1 hr
    exact ⟨fun as s hp hr => (hpart hp hr).oneSession,fun as s s' hp hr hl hs =>
      (hpart ((List.prefix_append as _).trans hp) hr).loggedOut_of_logout hl hs⟩

/-- Log In is tapped when no login is pending. -/
def LoginsAwaited : NavigationInput K → NavigationProcess K → Prop
  | .event .loginAction, s => s.reads = []
  | _, _ => True

def Awaiting (s : NavigationProcess K) : Prop :=
  s.reads = [] ∨ s.reads.length = 1 ∧ s.locals.pushed = []

omit [Field K] [LinearOrder K] [FloorRing K] in
theorem onEvent_reads {e : NavigationEvent} {n : Navigation K} {r : NavigationReaction K}
    (h : n.onEvent e = .ok r) :
    (r.reads = [] ∧ (n.pushed = [] → r.locals.pushed = [])) ∨
      (e = .loginAction ∧ r.reads.length = 1 ∧ r.locals.pushed = []) := by
  unfold onEvent at h
  split at h
  · next hp =>
    cases h
    exact Or.inl ⟨rfl,fun _ => hp⟩
  · next hp =>
    cases h
    exact Or.inr ⟨rfl,rfl,hp⟩
  · next hp =>
    cases h
    exact Or.inl ⟨rfl,fun hn => by simp [hp] at hn⟩
  · next hp =>
    split at h <;> cases h <;> exact Or.inl ⟨rfl,fun hn => by simp [hp] at hn⟩
  · next hp =>
    cases h
    exact Or.inl ⟨rfl,fun hn => by simp [hp] at hn⟩
  · next hp =>
    split at h <;> cases h <;> exact Or.inl ⟨rfl,fun hn => by simp [hp] at hn⟩
  · next hp =>
    cases h
    exact Or.inl ⟨rfl,fun hn => by simp [hp] at hn⟩
  · split at h <;> cases h <;> exact Or.inl ⟨rfl,fun hn => by simp [popViewController,hn]⟩
  · next t rest hp =>
    split at h
    · cases ht : t.settingsTimer with
      | some timer =>
        rw [ht] at h
        cases h
        exact Or.inl ⟨rfl,fun hn => by simp [hp] at hn⟩
      | none =>
        rw [ht] at h
        contradiction
    · cases h
      exact Or.inl ⟨rfl,fun hn => by simp [hp] at hn⟩
  · cases h
    exact Or.inl ⟨rfl,id⟩

theorem Awaiting.step {inp : NavigationInput K} {s s' : NavigationProcess K} (h : Awaiting s)
    (hc : LoginsAwaited inp s) (hs : Navigation.step inp s = some s') : Awaiting s' := by
  cases inp with
  | event e =>
    simp only [Navigation.step,Process.step] at hs
    split at hs
    · contradiction
    · cases hs
      cases hr : s.locals.onEvent e with
      | error t => exact Or.inl (by simp [program,hr,Process.absorb])
      | ok r =>
        simp only [Awaiting,program,hr,Process.absorb]
        rcases onEvent_reads hr with ⟨hnone,hpushed⟩ | ⟨rfl,hone,hpushed⟩
        · rw [hnone,List.append_nil]
          exact h.imp_right (fun hw => ⟨hw.1,hpushed hw.2⟩)
        · have hidle : s.reads = [] := hc
          exact Or.inr ⟨by simp [hidle,hone],hpushed⟩
  | deliver i snapshot d =>
    simp only [Navigation.step,Process.step] at hs
    split at hs
    · next q hq =>
      cases hs
      -- the one login that was pending has been answered
      have hi := (List.getElem?_eq_some_iff.mp hq).1
      have hlen : s.reads.length ≤ 1 := by
        rcases h with hnone | ⟨hone,_⟩
        · simp [hnone]
        · exact hone.le
      have hrest : s.reads.eraseIdx i = [] :=
        List.eq_nil_of_length_eq_zero (by rw [List.length_eraseIdx_of_lt hi]; omega)
      refine Or.inl ?_
      simp only [program,onRead]
      split <;> simp [Process.absorb,hrest]
    · contradiction

/-- Without a second Log In before the first is answered there is one session. -/
theorem oneLogin_of_loginsAwaited {inps : List (NavigationInput K)}
    (h : Along step LoginsAwaited inps (start K)) : OneLogin inps := by
  refine (oneLogin_iff_loginAlone inps).mpr (Along.mono_of_invariant step
    (fun _ _ _ hi hc hs => Awaiting.step hi hc hs) (fun inp s hi _ => ?_) (Or.inl rfl) h)
  cases inp with
  | event e => trivial
  | deliver i snapshot d =>
    intro q user hq _
    rcases hi with hnone | ⟨_,hpushed⟩
    · simp [hnone] at hq
    · simp [tabBars,hpushed]

end

def oneAccount : FNode ℚ :=
  .branch [("0",.branch [("health",.leaf (.double 50)),("password",.leaf (.string "pw")),
    ("power",.leaf (.double 3)),("totalExp",.leaf (.int 10)),("username",.leaf (.string "ann"))])]

/-- Log In is tapped twice before the first callback. -/
def tapTwice : List (NavigationInput ℚ) :=
  [.event (.editLogin "ann" "pw"),.event .loginAction,.event .loginAction,
    .deliver 0 oneAccount (),.deliver 0 oneAccount ()]

/-- Both callbacks succeed, and each pushes a tab bar with a timer. -/
theorem not_oneLogin : ¬ ∀ inps : List (NavigationInput ℚ), OneLogin inps := by
  intro h
  have hrun : (run step tapTwice (start ℚ)).map (fun s => s.locals.tabBars.length) = some 2 := by
    decide +kernel
  obtain ⟨s,hs,htabs⟩ := Option.map_eq_some_iff.mp hrun
  have hone := ((h tapTwice).session tapTwice s (List.prefix_refl _) hs).one
  omega

end Navigation

end GFLGO
