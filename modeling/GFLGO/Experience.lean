import Mathlib.Data.Rat.Floor
import GFLGO.Blows
import GFLGO.Tally
import GFLGO.UserKeys

/-!
The stored experience of one account against everything its sessions earned.
Each session pays from the copy it took at its login.
-/

set_option autoImplicit false

namespace GFLGO

open Runs Async

section
variable {K : Type}

def totalExpPath (id : Int) : List String := ["users",stringOfInt id,"totalExp"]

def Note.experience (id : Int) : Note K → Option Int
  | .addExperience userID amount _ => if userID = id then some amount else none
  | _ => none

/-- The sum of the amounts of all calls of `addExperience` by sessions of the account. -/
def earned (id : Int) (w : World K) : Int := (w.notes.filterMap (fun n => n.2.experience id)).sum

def leafInt : FNode K → Option Int
  | .leaf (.int n) => some n
  | _ => none

theorem leafInt_eq_some {t : FNode K} {n : Int} : leafInt t = some n ↔ t = .leaf (.int n) := by
  constructor
  · intro h
    unfold leafInt at h
    split at h
    · cases h
      rfl
    · contradiction
  · rintro rfl
    rfl

def Write.storesExp (id : Int) (x : Write K) : Option Int :=
  if x.path = totalExpPath id then leafInt x.node else none

structure Write.Unrelated (id : Int) (x : Write K) : Prop where
  stores : x.storesExp id = none
  spares : ∀ store,
    (applyWrite x store).getChild (totalExpPath id) = store.getChild (totalExpPath id)

theorem unrelated_enemies (id : Int) (rest : List String) (node : FNode K) :
    (⟨"enemies" :: rest,node⟩ : Write K).Unrelated id :=
  { stores := by simp [Write.storesExp,totalExpPath]
    spares := fun store => getChild_applyWrite_coll store _ rest node (by decide) }

theorem unrelated_field (id : Int) (key : String) {f : String} (hf : f ≠ "totalExp")
    (node : FNode K) : (⟨["users",key,f],node⟩ : Write K).Unrelated id where
  stores := by simp [Write.storesExp,totalExpPath,hf]
  spares := fun store => getChild_applyWrite_field store "users" _ key node hf.symm

theorem unrelated_other {id id' : Int} (h : id' ≠ id) (node : FNode K) :
    (⟨totalExpPath id',node⟩ : Write K).Unrelated id := by
  have hne : stringOfInt id ≠ stringOfInt id' := fun he => h (stringOfInt_injective he).symm
  exact
    { stores := by simp [Write.storesExp,totalExpPath,hne.symm]
      spares := fun store => getChild_applyWrite_key store "users" _ _ node hne }

theorem unrelated_enemyWrites (id : Int) (enemy : Enemy K) :
    ∀ x ∈ MapVC.enemyWrites enemy, x.Unrelated id := by
  rintro ⟨path,node⟩ hx
  obtain ⟨rest,rfl⟩ := enemyWrites_path enemy _ hx
  exact unrelated_enemies id _ node

theorem unrelated_locationWrites (id : Int) (user : User K) (c : Coordinate K) :
    ∀ x ∈ MapVC.locationWrites user c, x.Unrelated id := by
  intro x hx
  rcases List.mem_pair.mp hx with rfl | rfl
  · exact unrelated_field id _ (by decide) _
  · exact unrelated_field id _ (by decide) _

/-- A copy of the experience that the client may pay from: of a session, or of
a snapshot that a login may still be answered with. -/
def Knows (id : Int) (cl : Client K) (x : Int) : Prop :=
  (∃ t ∈ cl.locals.tabBarVCs, t.map.user.userID = id ∧ t.map.user.totalExp = x) ∨
    ∃ r ∈ cl.reads, ∃ s, r.snapshot = some s ∧ r.read.path = ["users"] ∧
      s.getChild [stringOfInt id,"totalExp"] = .leaf (.int x)

def ledger (id start : Int) (w : World K) : Tally.Ledger :=
  { stored := (leafInt (w.store.getChild (totalExpPath id))).getD 0
    pending := fun c => (w.clients c).writes.filterMap (Write.storesExp id)
    known := fun c => Knows id (w.clients c)
    total := start + earned id w }

theorem Knows.of_absorb {id : Int} {cl : Client K} {r : DeviceReaction K} {x : Int}
    (h : Knows id (cl.absorb (.ok r)) x) :
    (∃ t ∈ r.locals.tabBarVCs, t.map.user.userID = id ∧ t.map.user.totalExp = x) ∨
      Knows id cl x := by
  rcases h with h | ⟨rd,hrd,s,hs,hrest⟩
  · exact Or.inl h
  · rcases mem_reads_absorb.mp hrd with hold | ⟨q,_,rfl⟩
    · exact Or.inr (Or.inr ⟨rd,hold,s,hs,hrest⟩)
    · contradiction

theorem Knows.of_error {id : Int} {cl : Client K} {t : Trap} {x : Int}
    (h : Knows id (cl.absorb (.error t : Except Trap (DeviceReaction K))) x) : Knows id cl x := by
  rcases h with h | ⟨rd,hrd,_⟩
  · exact Or.inl h
  · contradiction

theorem Knows.of_eraseIdx {id : Int} {cl : Client K} {i : Nat} {x : Int}
    (h : Knows id { cl with reads := cl.reads.eraseIdx i } x) : Knows id cl x := by
  rcases h with h | ⟨rd,hrd,hrest⟩
  · exact Or.inl h
  · exact Or.inr ⟨rd,List.mem_of_mem_eraseIdx hrd,hrest⟩

def Read.isSignup : Read K → Bool
  | .checkIfUserExists _ _ | .addUserToFirebase _ _ _ => true
  | _ => false

/-- No new account is asked for. -/
def NoSignup : Label K → Prop
  | .event _ (.createAccountAction _) => False
  | _ => True

instance : DecidablePred (NoSignup : Label K → Prop) := fun l => by
  unfold NoSignup
  split <;> infer_instance

structure AccountedClient (id : Int) (cl : Client K) : Prop where
  reads : ∀ r ∈ cl.reads, r.read.isSignup = false
  snapshots : ∀ r ∈ cl.reads, ∀ s, r.snapshot = some s → r.read.path = ["users"] →
    ∃ x, s.getChild [stringOfInt id,"totalExp"] = .leaf (.int x)
  writes : ∀ x ∈ cl.writes, x.Unrelated id ∨ ∃ n, x = setValue (totalExpPath id) (.int n)

structure Accounted (id : Int) (w : World K) : Prop where
  keys : ∃ n, KeysInv n w
  stored : ∃ x, w.store.getChild (totalExpPath id) = .leaf (.int x)
  clients : ∀ c, AccountedClient id (w.clients c)

theorem GameScene.unrelated_defeatWrites {id : Int} {user : User K} (h : user.userID ≠ id)
    (s : GameScene K) : ∀ x ∈ s.defeatWrites user, x.Unrelated id := by
  intro x hx
  rcases List.mem_pair.mp hx with rfl | rfl
  · exact unrelated_enemies id _ _
  · exact unrelated_other h _

theorem earned_react {id : Int} {w : World K} {c : Nat} {cl : Client K}
    {r : Except Trap (DeviceReaction K)} :
    earned id (w.react c cl r) =
      earned id w + ((notesOf r).filterMap (Note.experience id)).sum := by
  simp [earned,List.filterMap_append,List.filterMap_map]

theorem look_react {id start : Int} {w : World K} {c : Nat} {cl : Client K}
    {r : Except Trap (DeviceReaction K)}
    (hw : (cl.absorb r).writes.filterMap (Write.storesExp id) =
      (w.clients c).writes.filterMap (Write.storesExp id))
    (hn : (notesOf r).filterMap (Note.experience id) = [])
    (hk : ∀ x, Knows id (cl.absorb r) x → Knows id (w.clients c) x) :
    Tally.Step .look (ledger id start w) (ledger id start (w.react c cl r)) := by
  refine .look rfl (funext ?_) ?_ (fun c' x => ?_)
  · exact clients_update_congr (fun cl => cl.writes.filterMap (Write.storesExp id)) hw
  · simp [ledger,earned_react,hn]
  · refine forall_clients_update (R := fun c' cl => Knows id cl x →
      Knows id (w.clients c') x ∨ x = (ledger id start w).stored) ?_ (fun _ _ h => Or.inl h) c'
    exact fun h => Or.inl (hk x h)

/-- The stored experience is what there was and all that was earned since. -/
def ExperienceKept (id start : Int) (w : World K) : Prop :=
  w.store.getChild (totalExpPath id) = .leaf (.int (start + earned id w))

theorem Accounted.kept_iff {id start : Int} {w : World K} (h : Accounted id w) :
    ExperienceKept id start w ↔ (ledger id start w).stored = (ledger id start w).total := by
  obtain ⟨x,hx⟩ := h.stored
  simp [ExperienceKept,ledger,hx,leafInt]

theorem settled_of_quiet {id start : Int} {w : World K} (h : w.Quiet) :
    Tally.Settled (ledger id start w) := by
  intro c
  simp [ledger,(h c).2]

theorem accounted_start {store : FNode K} {n : Nat} {id start : Int}
    (hs : InitialSegment n (store.getChild ["users"]))
    (hexp : store.getChild (totalExpPath id) = .leaf (.int start)) :
    Accounted id (World.start store) :=
  { keys := ⟨n,keysInv_start hs⟩
    stored := ⟨start,hexp⟩
    clients := fun c => by constructor <;> simp [World.start] }

theorem fresh_start {store : FNode K} {id start : Int}
    (hexp : store.getChild (totalExpPath id) = .leaf (.int start)) :
    Tally.Fresh (ledger id start (World.start store)) := by
  have hknown (c : Nat) (x : Int) : ¬ Knows id ((World.start store).clients c) x := by
    simp [Knows,World.start]
  refine ⟨⟨0,[],fun c _ => rfl,?_,by simp⟩,fun c x hx => absurd hx (hknown c x),
    fun c c' hx => absurd hx (hknown c _)⟩
  simp [ledger,World.start,earned,hexp,leafInt]

section
variable [Field K] [LinearOrder K]

theorem EventOutcome.reads_noSignup {p : Platform K} {d : Device K} {e : Event K} {c : Nat}
    {r : DeviceReaction K} (h : EventOutcome p d e r) (hl : NoSignup (.event c e : Label K)) :
    ∀ q ∈ r.reads, q.isSignup = false := by
  intro q hq
  cases h with
  | createAccountAction hv => exact absurd hl id
  | loginAction => rw [List.mem_singleton.mp hq]; rfl
  | map ht hr =>
    obtain ⟨mq,_,rfl⟩ := List.mem_map.mp hq
    rfl
  | changePasswordAction ht hn => rw [List.mem_singleton.mp hq]; rfl
  | _ => contradiction

def ledgerAction (id : Int) (l : Label K) (w : World K) : Tally.Action :=
  match blow l w with
  | some (user,_) => if user.userID = id then .raise user.totalExp 1 else .look
  | none => .look

/-- Every defeat is paid from a copy that has all the experience earned before it. -/
def UpToDate (id start : Int) (l : Label K) (w : World K) : Prop :=
  ∀ user s, blow l w = some (user,s) → user.userID = id → user.totalExp = start + earned id w

instance (id start : Int) (l : Label K) (w : World K) : Decidable (UpToDate id start l w) :=
  match h : blow l w with
  | some (user,_) =>
    decidable_of_iff (user.userID = id → user.totalExp = start + earned id w)
      (by simp [UpToDate,h])
  | none => isTrue (by simp [UpToDate,h])

theorem tally_upToDate_iff {id start : Int} {l : Label K} {w : World K} :
    Tally.UpToDate (ledgerAction id l w) (ledger id start w) ↔ UpToDate id start l w := by
  constructor
  · intro h user s hb hid
    exact h user.totalExp 1 (by simp [ledgerAction,hb,hid])
  · intro h copy amount ha
    unfold ledgerAction at ha
    split at ha
    · next user s hb =>
      split at ha
      · next hid =>
        cases ha
        exact h user s hb hid
      · contradiction
    · contradiction

theorem writes_of_onEvent {p : Platform K} {d : Device K} {e : Event K} {r : DeviceReaction K}
    (hr : d.onEvent p e = .ok r) (id : Int) :
    ∀ x ∈ r.writes, x.Unrelated id ∨ ∃ n, x = setValue (totalExpPath id) (.int n) := by
  cases hb : d.blow e with
  | none => simp [((onEvent_outcome hr).noBlow hb).writes]
  | some struck =>
    obtain ⟨user,s⟩ := struck
    rw [(blow_of_onEvent hr hb).writes]
    intro x hx
    by_cases hid : user.userID = id
    · subst hid
      rcases List.mem_pair.mp hx with rfl | rfl
      · exact Or.inl (unrelated_enemies _ _ _)
      · exact Or.inr ⟨_,rfl⟩
    · exact Or.inl (s.unrelated_defeatWrites hid x hx)

variable [FloorRing K]

theorem ReadOutcome.reads_noSignup {p : Platform K} {snapshot : FNode K} {draw : Draw K}
    {d : Device K} {q : Read K} {r : DeviceReaction K} (h : ReadOutcome p snapshot draw d q r)
    (hq : q.isSignup = false) : ∀ q' ∈ r.reads, q'.isSignup = false := by
  intro q' hq'
  cases h with
  | userIsNew hv hc => contradiction
  | map ht hr =>
    obtain ⟨mq,_,rfl⟩ := List.mem_map.mp hq'
    rfl
  | _ => contradiction

theorem ReadOutcome.writes_unrelated {p : Platform K} {snapshot : FNode K} {draw : Draw K}
    {d : Device K} {q : Read K} {r : DeviceReaction K} (h : ReadOutcome p snapshot draw d q r)
    (hq : q.isSignup = false) (id : Int) : ∀ x ∈ r.writes, x.Unrelated id := by
  intro x hx
  cases h with
  | addUser hv => contradiction
  | passwordChanged hleaf ht hn =>
    rw [List.mem_singleton.mp hx]
    exact unrelated_field id _ (by decide) _
  | @map _ t _ _ ht hr =>
    obtain ⟨_,⟨c,_,hw,_⟩ | ⟨enemy,_,hw,_⟩ | ⟨hw,_⟩⟩ := MapVC.onRead_effect hr
    · simp only [Device.ofMap,hw] at hx
      exact unrelated_locationWrites id _ c x hx
    · simp only [Device.ofMap,hw] at hx
      exact unrelated_enemyWrites id enemy x hx
    · simp [Device.ofMap,hw] at hx
  | _ => contradiction

/-- A login copies the experience that its snapshot has for the account. -/
theorem totalExp_of_login {n : Nat} {users : FNode K} {username password : String}
    {user : User K} {x : Int} (hs : InitialSegment n users)
    (hx : users.getChild [stringOfInt user.userID,"totalExp"] = .leaf (.int x))
    (h : LoginVC.loginIfValid username password users.children = .ok (some user)) :
    user.totalExp = x := by
  obtain ⟨c,hc,_,_,userID,health,power,totalExp,hk,_,_,hexp,rfl⟩ := loginIfValid_eq_some h
  obtain ⟨k,_,he⟩ := (hs.mem_iff c.1).mp (List.mem_map_of_mem hc)
  have hid : stringOfInt userID = c.1 := by
    rw [he,intOfString_stringOfInt,Option.some.injEq] at hk
    rw [he,hk]
  have hchild : users.getImmediateChild c.1 = c.2 := PathTree.getImmediateChild_of_mem hs.nodup hc
  have hleaf : c.2.getImmediateChild "totalExp" = .leaf (.int x) := by
    rw [← hchild,← hid,← hx]
    simp [User.init,PathTree.getChild_cons]
  rw [asInt,hleaf] at hexp
  exact (Except.ok.inj hexp).symm

theorem Accounted.step {id : Int} {p : Platform K} {l : Label K} {w w' : World K}
    (hi : Accounted id w) (hl : NoSignup l) (h : step p l w = some w') : Accounted id w' := by
  obtain ⟨n,hk⟩ := hi.keys
  refine ⟨hk.step h,?_,fun c => ⟨fun rd hrd => ?_,fun rd hrd s hs hpath => ?_,fun x hx => ?_⟩⟩
  · rcases step_store h with hsame | ⟨c,x,xs,_,hx,hstore⟩
    · exact hsame ▸ hi.stored
    · rw [hstore]
      rcases (hi.clients c).writes x (by rw [hx]; exact List.mem_cons_self) with hun | ⟨m,rfl⟩
      · obtain ⟨y,hy⟩ := hi.stored
        exact ⟨y,(hun.spares w.store).trans hy⟩
      · exact ⟨m,getChild_applyWrite_self _ _ _⟩
  · rcases mem_reads_step h hrd with ⟨rd',hrd',hsame⟩ | ⟨r,hr,hnew⟩
    · exact hsame ▸ (hi.clients c).reads rd' hrd'
    · cases hr with
      | event hr => exact (onEvent_outcome hr).reads_noSignup hl _ hnew
      | deliver hq hr =>
        have hread := (hi.clients c).reads _ (List.mem_of_getElem? hq)
        exact (onRead_outcome hr).reads_noSignup hread _ hnew
  · rcases snapshot_of_step h hrd hs with hold | ⟨i,_,_,hview⟩
    · exact (hi.clients c).snapshots rd hold s hs hpath
    · obtain ⟨x,hx⟩ := hi.stored
      refine ⟨x,?_⟩
      rw [hview,view_users hpath,← PathTree.getChild_cons]
      exact hx
  · rcases mem_writes_step h hx with hold | ⟨r,hr,hnew⟩
    · exact (hi.clients c).writes x hold
    · cases hr with
      | event hr => exact writes_of_onEvent hr id x hnew
      | deliver hq hr =>
        have hread := (hi.clients c).reads _ (List.mem_of_getElem? hq)
        exact Or.inl ((onRead_outcome hr).writes_unrelated hread id x hnew)

theorem simulates_event {id start : Int} {p : Platform K} {c : Nat} {e : Event K}
    {w w' : World K} (h : step p (.event c e) w = some w') :
    Tally.Step (ledgerAction id (.event c e) w) (ledger id start w) (ledger id start w') := by
  obtain ⟨_,rfl⟩ := step_event h
  cases hb : (w.clients c).locals.blow e with
  | none =>
    have hact : ledgerAction id (.event c e) w = .look := by simp [ledgerAction,blow,hb]
    rw [hact]
    cases hr : (program p).onEvent e (w.clients c).locals with
    | error t => exact look_react rfl rfl (fun x => Knows.of_error)
    | ok r =>
      have hno := (onEvent_outcome hr).noBlow hb
      refine look_react (by simp [Client.absorb,hno.writes]) (by simp [notesOf,hno.notes])
        (fun x hx => ?_)
      rcases hx.of_absorb with ⟨t',ht',hid,hx⟩ | hold
      · obtain ⟨t,ht,hsame⟩ := hno.sessions t' ht'
        exact Or.inl ⟨t,ht,hsame.1.symm.trans hid,hsame.2.symm.trans hx⟩
      · exact hold
  | some struck =>
    obtain ⟨user,s⟩ := struck
    obtain ⟨r,hr,hblow⟩ := exists_blow (p := p) hb
    have hprog : (program p).onEvent e (w.clients c).locals = .ok r := hr
    have hsession (t' : TabBarVC K) (ht' : t' ∈ r.locals.tabBarVCs)
        (hid : t'.map.user.userID = id) : Knows id (w.clients c) t'.map.user.totalExp ∨
          (user.userID = id ∧ t'.map.user.totalExp = user.totalExp+1) := by
      rcases hblow.sessions t' ht' with hnew | hold
      · rw [hnew] at hid ⊢
        exact Or.inr ⟨hid,rfl⟩
      · exact Or.inl (Or.inl ⟨t',hold,hid,rfl⟩)
    rw [hprog]
    by_cases hid : user.userID = id
    · have hact : ledgerAction id (.event c e) w = .raise user.totalExp 1 := by
        simp [ledgerAction,blow,hb,hid]
      rw [hact]
      obtain ⟨t,ht,hu,_⟩ := hblow.struck
      refine .raise (c := c) (Or.inl ⟨t,ht,hu ▸ hid,by rw [hu]⟩) (by omega) rfl ?_ ?_ ?_ ?_
      · have hexp : (s.defeatWrites user).filterMap (Write.storesExp id) = [user.totalExp+1] := by
          subst hid
          simp [GameScene.defeatWrites,GameScene.removeEnemyFromFirebase,User.addExperience,
            removeValue,setValue,Write.storesExp,totalExpPath,leafInt]
        simp [ledger,Client.absorb,hblow.writes,hexp]
      · intro c' hc
        simp [ledger,react_clients_ne w c _ _ hc]
      · simp [ledger,earned_react,notesOf,hblow.notes,Note.experience,hid]
        omega
      · intro c' x hx
        by_cases hc : c' = c
        · subst hc
          simp only [ledger,react_clients_self] at hx
          rcases hx.of_absorb with ⟨t',ht',hid',rfl⟩ | hold
          · rcases hsession t' ht' hid' with hold | ⟨_,hnew⟩
            · exact Or.inl hold
            · exact Or.inr ⟨rfl,hnew⟩
          · exact Or.inl hold
        · simp only [ledger,react_clients_ne w c _ _ hc] at hx
          exact Or.inl hx
    · have hact : ledgerAction id (.event c e) w = .look := by
        simp [ledgerAction,blow,hb,hid]
      rw [hact]
      refine look_react ?_ (by simp [notesOf,hblow.notes,Note.experience,hid]) (fun x hx => ?_)
      · have hnone : (s.defeatWrites user).filterMap (Write.storesExp id) = [] := by
          rw [List.filterMap_eq_nil_iff]
          exact fun y hy => (s.unrelated_defeatWrites hid y hy).stores
        simp [Client.absorb,hblow.writes,hnone]
      · rcases hx.of_absorb with ⟨t',ht',hid',rfl⟩ | hold
        · rcases hsession t' ht' hid' with hold | ⟨hyes,_⟩
          · exact hold
          · exact absurd hyes hid
        · exact hold

theorem simulates_snapshot {id start : Int} {p : Platform K} {c i : Nat} {w w' : World K}
    (h : step p (.snapshot c i) w = some w') :
    Tally.Step .look (ledger id start w) (ledger id start w') := by
  obtain ⟨q,hq,rfl⟩ := step_snapshot h
  refine .look rfl (funext ?_) rfl (fun c' x => ?_)
  · exact clients_update_congr (fun cl => cl.writes.filterMap (Write.storesExp id)) rfl
  · refine forall_clients_update (R := fun c' cl => Knows id cl x →
      Knows id (w.clients c') x ∨ x = (ledger id start w).stored) ?_ (fun _ _ h => Or.inl h) c'
    rintro (hk | ⟨r,hr,s,hs,hpath,hx⟩)
    · exact Or.inl (Or.inl hk)
    · rcases List.mem_or_eq_of_mem_set hr with hold | rfl
      · exact Or.inl (Or.inr ⟨r,hold,s,hs,hpath,hx⟩)
      · cases hs
        rw [view_users hpath,← PathTree.getChild_cons] at hx
        exact Or.inr (by simp [ledger,totalExpPath,hx,leafInt])

theorem simulates_deliver {id start : Int} {p : Platform K} {c i : Nat} {d : Draw K}
    {w w' : World K} (hi : Accounted id w) (h : step p (.deliver c i d) w = some w') :
    Tally.Step .look (ledger id start w) (ledger id start w') := by
  obtain ⟨q,s,hq,rfl⟩ := step_deliver h
  have hmem := List.mem_of_getElem? hq
  have hread := (hi.clients c).reads _ hmem
  cases hr : (program p).onRead q s d (w.clients c).locals with
  | error t => exact look_react rfl rfl (fun x hx => hx.of_error.of_eraseIdx)
  | ok r =>
    have hout := onRead_outcome hr
    have hwrites : r.writes.filterMap (Write.storesExp id) = [] := by
      rw [List.filterMap_eq_nil_iff]
      exact fun y hy => (hout.writes_unrelated hread id y hy).stores
    have hnotes : r.notes.filterMap (Note.experience id) = [] := by
      rw [List.filterMap_eq_nil_iff]
      intro n hn
      have hno := hout.pays n hn
      cases n with
      | addExperience userID amount identifier =>
        exact absurd rfl (hno userID amount identifier)
      | _ => rfl
    refine look_react (by simp [Client.absorb,hwrites]) hnotes (fun x hx => ?_)
    rcases hx.of_absorb with ⟨t',ht',hid,rfl⟩ | hold
    · rcases hout.sessions t' ht' with ⟨t,ht,hsame⟩ | ⟨username,password,rfl,hl⟩
      · exact Or.inl ⟨t,ht,hsame ▸ hid,by rw [hsame]⟩
      · -- A login knows what its snapshot knew.
        obtain ⟨n,hk⟩ := hi.keys
        obtain ⟨m,_,hseg⟩ := ((hk.clients c).reads _ hmem).snapshot s rfl rfl
        obtain ⟨x,hx⟩ := (hi.clients c).snapshots _ hmem s rfl rfl
        have hexp := totalExp_of_login hseg (hid ▸ hx) hl
        exact Or.inr ⟨_,hmem,s,rfl,rfl,hexp ▸ hx⟩
    · exact hold.of_eraseIdx

theorem simulates_apply {id start : Int} {p : Platform K} {c : Nat} {w w' : World K}
    (hi : Accounted id w) (h : step p (.apply c) w = some w') :
    Tally.Step .look (ledger id start w) (ledger id start w') := by
  obtain ⟨x,xs,hx,rfl⟩ := step_apply h
  have hknown (c' : Nat) (y : Int) (hy : Knows id ((w.setClient c { w.clients c with
      writes := xs }).clients c') y) : Knows id (w.clients c') y := by
    refine forall_clients_update (R := fun c' cl => Knows id cl y → Knows id (w.clients c') y)
      ?_ (fun _ _ h => h) c' hy
    exact fun h => h
  rcases (hi.clients c).writes x (by rw [hx]; exact List.mem_cons_self) with hun | ⟨m,rfl⟩
  · refine .look ?_ (funext ?_) rfl (fun c' y hy => Or.inl (hknown c' y hy))
    · simp only [ledger]
      rw [show backend.apply x w.store = applyWrite x w.store from rfl,hun.spares]
    · refine clients_update_congr (fun cl => cl.writes.filterMap (Write.storesExp id)) ?_
      rw [hx,List.filterMap_cons_none hun.stores]
  · have hstores : Write.storesExp id (setValue (totalExpPath id) (.int m) : Write K) = some m := by
      simp [Write.storesExp,setValue,leafInt]
    have hstored : (backend.apply (setValue (totalExpPath id) (.int m)) w.store).getChild
        (totalExpPath id) = .leaf (.int m) := getChild_applyWrite_self _ _ _
    refine .write (c := c) ?_ (fun c' hc => ?_) rfl hknown
    · simp [ledger,hx,List.filterMap_cons_some hstores,hstored,leafInt]
    · simp [ledger,setClient_clients_ne w c _ hc]

/-- The ledger follows every step. -/
theorem ledger_simulates {id : Int} (start : Int) {p : Platform K} {l : Label K}
    {w w' : World K} (hi : Accounted id w) (h : step p l w = some w') :
    Tally.Step (ledgerAction id l w) (ledger id start w) (ledger id start w') := by
  cases l with
  | event c e => exact simulates_event h
  | snapshot c i => exact simulates_snapshot h
  | deliver c i d => exact simulates_deliver hi h
  | apply c => exact simulates_apply hi h

/-- While nobody signs up, the experience of an account is kept exactly when no
session ever pays from an outdated copy. -/
theorem experienceKept_iff (p : Platform K) (store : FNode K) (n : Nat) (id start : Int)
    (hs : InitialSegment n (store.getChild ["users"]))
    (hexp : store.getChild (totalExpPath id) = .leaf (.int start)) (ls : List (Label K))
    (hl : ∀ l ∈ ls, NoSignup l) (w : World K)
    (hr : run (step p) ls (World.start store) = some w) (hq : w.Quiet) :
    ExperienceKept id start w ↔ Along (step p) (UpToDate id start) ls (World.start store) := by
  have hcases := run_dichotomy (C := UpToDate id start)
    (G := fun w => Accounted id w ∧ Tally.Fresh (ledger id start w))
    (B := fun w => Accounted id w ∧ Tally.Behind (ledger id start w)) (step p) ?_ ?_ ?_ hl
    ⟨accounted_start hs hexp,fresh_start hexp⟩ hr
  · rcases hcases with ⟨halong,hacc,hfresh⟩ | ⟨halong,hacc,hbehind⟩
    · rw [hacc.kept_iff]
      exact ⟨fun _ => halong,fun _ => hfresh.stored_of_settled (settled_of_quiet hq)⟩
    · rw [hacc.kept_iff]
      have hlt := hbehind.stored
      exact ⟨fun he => by omega,fun h => absurd h halong⟩
  · rintro l w w' hlabel ⟨hacc,hfresh⟩ hc h
    exact ⟨hacc.step hlabel h,
      hfresh.step (ledger_simulates start hacc h) (tally_upToDate_iff.mpr hc)⟩
  · rintro l w w' hlabel ⟨hacc,hfresh⟩ hc h
    exact ⟨hacc.step hlabel h,hfresh.behind_of_step (ledger_simulates start hacc h)
      (fun hu => hc (tally_upToDate_iff.mp hu))⟩
  · rintro l w w' hlabel ⟨hacc,hbehind⟩ h
    exact ⟨hacc.step hlabel h,hbehind.step (ledger_simulates start hacc h)⟩

end

end

/-- A database with one account. -/
def annStore : FNode ℚ :=
  (SignupVC.userWrites "0" (User.init "ann" (some "pw") 0 50 3.2 10)).foldl
    (fun store x => applyWrite x store) .empty

def annBobStore : FNode ℚ :=
  let ann : User ℚ := User.init "ann" (some "pw") 0 50 3.2 10
  let bob : User ℚ := User.init "bob" (some "pw") 1 50 3.2 10
  drain (MapVC.locationWrites ann ⟨0,0⟩ ++ SignupVC.userWrites "1" bob ++
    MapVC.locationWrites bob ⟨0,0⟩) annStore

theorem initialSegment_annStore : InitialSegment 1 (annStore.getChild ["users"]) := by
  have hkeys : (annStore.getChild ["users"]).childKeys = [stringOfInt (0 : Nat)] := by
    decide +kernel
  refine ⟨hkeys ▸ List.nodup_singleton _,fun key => ?_⟩
  rw [hkeys]
  simp

theorem totalExp_annStore : annStore.getChild (totalExpPath 0) = .leaf (.int 10) :=
  leafInt_eq_some.mp (by decide +kernel)

def oneSession : List (Label ℚ) :=
  login 0 sampleDraw "ann" "pw" ++ locate 0 sampleDraw 0 ⟨0,0⟩ ++ addEnemy 0 sampleDraw 0 ++
    battle 0 0 0 ++ defeat 0 0 0 9

theorem experienceKept_oneSession : ∃ w,
    run (step planePlatform) oneSession (World.start annStore) = some w ∧
      earned 0 w = 1 ∧ ExperienceKept 0 10 w := by
  have hrun : (run (step planePlatform) oneSession (World.start annStore)).map
      (fun w => (earned 0 w,decide (∀ l ∈ oneSession, (w.clients l.client).Quiet))) =
        some (1,true) := by
    decide +kernel
  obtain ⟨w,hw,he⟩ := Option.map_eq_some_iff.mp hrun
  simp only [Prod.mk.injEq,decide_eq_true_eq] at he
  have hq : w.Quiet := quiet_of_run (fun _ => ⟨rfl,rfl⟩) hw he.2
  refine ⟨w,hw,he.1,?_⟩
  exact (experienceKept_iff planePlatform annStore 1 0 10 initialSegment_annStore
    totalExp_annStore oneSession (by decide +kernel) w hw hq).mpr (by decide +kernel)

/-- Two sessions of one account, one victory after the other. -/
def twoSessions : List (Label ℚ) :=
  login 0 sampleDraw "ann" "pw" ++ login 1 sampleDraw "ann" "pw" ++
    locate 0 sampleDraw 0 ⟨0,0⟩ ++ addEnemy 0 sampleDraw 0 ++ battle 0 0 0 ++ defeat 0 0 0 9 ++
    locate 1 sampleDraw 0 ⟨0,0⟩ ++ addEnemy 1 { sampleDraw with time := 1500000001 } 0 ++
    battle 1 0 0 ++ defeat 1 0 0 9

/-- Two defeats are paid, and the store has 11 where it had 10. -/
theorem not_experienceKept : ¬ ∀ (store : FNode ℚ) (n : Nat) (id start : Int)
    (ls : List (Label ℚ)) (w : World ℚ), InitialSegment n (store.getChild ["users"]) →
    store.getChild (totalExpPath id) = .leaf (.int start) → (∀ l ∈ ls, NoSignup l) →
    run (step planePlatform) ls (World.start store) = some w → w.Quiet →
    ExperienceKept id start w := by
  intro h
  have hrun : (run (step planePlatform) twoSessions (World.start annStore)).map
      (fun w => (earned 0 w,leafInt (w.store.getChild (totalExpPath 0)),
        decide (∀ l ∈ twoSessions, (w.clients l.client).Quiet))) = some (2,some 11,true) := by
    decide +kernel
  obtain ⟨w,hw,he⟩ := Option.map_eq_some_iff.mp hrun
  simp only [Prod.mk.injEq,decide_eq_true_eq] at he
  obtain ⟨hearned,hstored,hquiet⟩ := he
  have hq : w.Quiet := quiet_of_run (fun _ => ⟨rfl,rfl⟩) hw hquiet
  have hkept := h annStore 1 0 10 twoSessions w initialSegment_annStore totalExp_annStore
    (by decide +kernel) hw hq
  rw [ExperienceKept,leafInt_eq_some.mp hstored,hearned] at hkept
  simp at hkept

end GFLGO
