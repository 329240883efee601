import GFLGO.CompareSet
import GFLGO.SessionWrites

/-!
Password changes of sessions of one account. The old password is compared with
a snapshot, the new one is stored whatever has happened since.
-/

set_option autoImplicit false

namespace GFLGO

open Runs Async

structure PasswordChange where
  userID : String
  oldPassword : String
  newPassword : String

def passwordPath (id : String) : List String := ["users",id,"password"]

section
variable {K : Type}

def Note.change : Note K → Option PasswordChange
  | .passwordChanged userID oldPassword newPassword => some { userID, oldPassword, newPassword }
  | _ => none

def Write.valueAt (path : List String) (x : Write K) : Option (FNode K) :=
  if x.path = path then some x.node else none

def passwordCell (id : String) (w : World K) : CompareSet.Cell (FNode K) :=
  { stored := w.store.getChild (passwordPath id)
    pending := fun c => (w.clients c).writes.map (Write.valueAt (passwordPath id)) }

def Read.givenPassword (id : String) : Read K → Option String
  | .changeIfValidPassword _ _ oldPassword userID => if userID = id then some oldPassword else none
  | _ => none

/-- When a change finds its old password in the snapshot, that is what is stored, and no client
has a write of the password under way. The new password, if it is another one, is not what a
change still to be answered gives as the old one. -/
def PasswordCurrent (id : String) : Label K → World K → Prop
  | .deliver c i _, w => ∀ tab vc old n, (w.clients c).reads[i]? =
      some ⟨.changeIfValidPassword tab vc old id,some (.leaf (.string old))⟩ →
    (w.clients c).locals.newPasswordVC tab vc = some n →
    w.store.getChild (passwordPath id) = .leaf (.string old) ∧
      (∀ c', ∀ x ∈ (w.clients c').writes, x.path ≠ passwordPath id) ∧
      (n.newPasswordOutlet ≠ old → ∀ c', ∀ rd ∈ (w.clients c').reads,
        rd.read.givenPassword id ≠ some n.newPasswordOutlet)
  | _, _ => True

variable [Field K] [LinearOrder K] [FloorRing K]

def changed (p : Platform K) : Label K → World K → Option PasswordChange
  | .deliver c i d, w =>
    match (w.clients c).reads[i]? with
    | some ⟨q,some s⟩ => (notesOf ((w.clients c).locals.onRead p q s d)).findSome? Note.change
    | _ => none
  | _, _ => none

/-- Two changes that the run reports overlap: the second one had been asked for when the write
of the first one was not yet applied. -/
inductive Overlap (p : Platform K) (ls : List (Label K)) (store : FNode K) :
    PasswordChange → PasswordChange → Prop
  | mk {as bs cs : List (Label K)} {c c' i i' j : Nat} {d d' : Draw K} {u v v' : World K}
    {ch ch' : PasswordChange}
    (hp : as ++ .deliver c i d :: bs ++ cs ++ [.deliver c' j d'] <+: ls)
    (hu : run (step p) as (World.start store) = some u)
    (hch : changed p (.deliver c i d) u = some ch)
    (hv : run (step p) (.deliver c i d :: bs) u = some v)
    (hwrite : bs.countP (Label.isApplyOf c) ≤ (u.clients c).writes.length)
    (hasked : i' < (v.clients c').reads.length) (hplace : placeAfter c' cs i' = some j)
    (hv' : run (step p) cs v = some v') (hch' : changed p (.deliver c' j d') v' = some ch') :
    Overlap p ls store ch ch'

/-- What a change replaces is the old password it was given; and of changes that overlap, that
were all given one old password, for new ones that differ from it and from each other, no two
are reported. -/
structure CompareAndSet (p : Platform K) (id : String) (ls : List (Label K)) (store : FNode K) :
    Prop where
  replaces : ∀ as bs c i d ch u v, as ++ .deliver c i d :: bs ++ [.apply c] <+: ls →
    run (step p) as (World.start store) = some u → changed p (.deliver c i d) u = some ch →
    ch.userID = id → run (step p) (.deliver c i d :: bs) u = some v →
    bs.countP (Label.isApplyOf c) = (u.clients c).writes.length →
    v.store.getChild (passwordPath id) = .leaf (.string ch.oldPassword)
  once : ∀ ch ch', Overlap p ls store ch ch' → ch.userID = id → ch'.userID = id →
    ch.oldPassword = ch'.oldPassword → ch.newPassword ≠ ch'.newPassword →
    ch.newPassword ≠ ch.oldPassword → ch'.newPassword ≠ ch'.oldPassword → False

variable {p : Platform K} {id : String} {l : Label K} {w w' : World K}

theorem ReadOutcome.change {snapshot : FNode K} {draw : Draw K} {d : Device K} {q : Read K}
    {r : DeviceReaction K} {ch : PasswordChange} (h : ReadOutcome p snapshot draw d q r)
    (hch : r.notes.findSome? Note.change = some ch) :
    (∃ tab vc n, q = .changeIfValidPassword tab vc ch.oldPassword ch.userID ∧
      d.newPasswordVC tab vc = some n ∧ n.newPasswordOutlet = ch.newPassword) ∧
      snapshot = .leaf (.string ch.oldPassword) ∧
      r.writes = [setValue (passwordPath ch.userID) (.string ch.newPassword)] := by
  cases h with
  | passwordChanged hs ht hn =>
    cases hch
    exact ⟨⟨_,_,_,rfl,by simp [Device.newPasswordVC,ht,hn],rfl⟩,hs,rfl⟩
  | map ht hr =>
    simp only [Device.ofMap] at hch
    rcases (MapVC.onRead_effect hr).2 with ⟨c,_,_,hn⟩ | ⟨enemy,_,_,hn⟩ | ⟨_,hn⟩
    all_goals
      rw [hn] at hch
      contradiction
  | _ => contradiction

theorem ReadOutcome.change_of_write {snapshot : FNode K} {draw : Draw K} {d : Device K}
    {q : Read K} {r : DeviceReaction K} (h : ReadOutcome p snapshot draw d q r)
    (hq : q.isSignup = false) {x : Write K} (hx : x ∈ r.writes) (hp : x.path = passwordPath id) :
    ∃ ch, r.notes.findSome? Note.change = some ch ∧ ch.userID = id := by
  cases h with
  | addUser hv => contradiction
  | passwordChanged hs ht hn =>
    rw [List.mem_singleton.mp hx] at hp
    simp only [setValue,passwordPath,List.cons.injEq] at hp
    exact ⟨_,rfl,hp.2.1⟩
  | @map _ t _ _ ht hr =>
    simp only [Device.ofMap] at hx
    rcases (MapVC.onRead_effect hr).2 with ⟨c,_,hw,_⟩ | ⟨enemy,_,hw,_⟩ | ⟨hw,_⟩
    · rw [hw] at hx
      rcases List.mem_pair.mp hx with rfl | rfl <;> simp [setValue,passwordPath] at hp
    · rw [hw] at hx
      obtain ⟨rest,hpath⟩ := enemyWrites_path enemy x hx
      simp [hpath,passwordPath] at hp
    · simp [hw] at hx
  | _ => contradiction

theorem changed_of_write (h : SessionsOnly w) {c : Nat} {r : DeviceReaction K}
    (hr : Reacts (program p) w c r l) {x : Write K} (hx : x ∈ r.writes)
    (hp : x.path = passwordPath id) : ∃ ch, changed p l w = some ch ∧ ch.userID = id := by
  cases hr with
  | event hr =>
    rcases (onEvent_outcome hr).path x hx with ⟨rest,he⟩ | ⟨key,he⟩ <;>
      simp [hp,passwordPath] at he
  | deliver hq hr =>
    obtain ⟨ch,hch,hid⟩ := (onRead_outcome hr).change_of_write
      (h.reads c _ (List.mem_of_getElem? hq)) hx hp
    refine ⟨ch,?_,hid⟩
    simp only [changed,hq]
    exact (show (w.clients c).locals.onRead p _ _ _ = .ok r from hr) ▸ hch

def AsksFor (ch : PasswordChange) (c i : Nat) (w : World K) : Prop :=
  ∃ tab vc n, (w.clients c).reads[i]? =
      some ⟨.changeIfValidPassword tab vc ch.oldPassword ch.userID,
        some (.leaf (.string ch.oldPassword))⟩ ∧
    (w.clients c).locals.newPasswordVC tab vc = some n ∧ n.newPasswordOutlet = ch.newPassword

theorem reacts_of_changed {ch : PasswordChange} (h : changed p l w = some ch) :
    ∃ c i d r, l = .deliver c i d ∧ AsksFor ch c i w ∧ Reacts (program p) w c r l ∧
      r.writes = [setValue (passwordPath ch.userID) (.string ch.newPassword)] := by
  unfold changed at h
  split at h
  · next c i d =>
    split at h
    · next q s hq =>
      cases hr : (w.clients c).locals.onRead p q s d with
      | error t => simp [hr,notesOf] at h
      | ok r =>
        rw [hr] at h
        obtain ⟨⟨tab,vc,n,rfl,hn,hnew⟩,rfl,hw⟩ := (onRead_outcome hr).change h
        exact ⟨c,i,d,r,rfl,⟨tab,vc,n,hq,hn,hnew⟩,.deliver hq hr,hw⟩
    · contradiction
  · contradiction

omit [Field K] [LinearOrder K] [FloorRing K] in
theorem Write.OfSession.valueAt {x : Write K} (h : x.OfSession) (store : FNode K) :
    (x.valueAt (passwordPath id)).getD (store.getChild (passwordPath id)) =
      (applyWrite x store).getChild (passwordPath id) := by
  by_cases hp : x.path = passwordPath id
  · obtain ⟨path,node⟩ := x
    obtain rfl : path = passwordPath id := hp
    rw [getChild_applyWrite_self]
    simp [Write.valueAt]
  · rw [Write.valueAt,if_neg hp]
    exact (h.keeps hp store).symm

omit [Field K] [LinearOrder K] [FloorRing K] in
theorem elsewhere_map {ws : List (Write K)} (h : ∀ x ∈ ws, x.path ≠ passwordPath id) :
    CompareSet.Elsewhere (ws.map (Write.valueAt (passwordPath id))) := by
  intro o ho
  obtain ⟨x,hx,rfl⟩ := List.mem_map.mp ho
  exact if_neg (h x hx)

def cellAction (p : Platform K) (id : String) (l : Label K) (w : World K) :
    CompareSet.Action (FNode K) :=
  match changed p l w with
  | some ch =>
    if ch.userID = id then
      .report l.client (.leaf (.string ch.oldPassword)) (.leaf (.string ch.newPassword))
    else .quiet
  | none =>
    match l with
    | .apply c => .apply c
    | _ => .quiet

theorem cellAction_of_changed {ch : PasswordChange} (hch : changed p l w = some ch) :
    cellAction p ch.userID l w =
      .report l.client (.leaf (.string ch.oldPassword)) (.leaf (.string ch.newPassword)) := by
  simp only [cellAction,hch,if_true]

theorem passwordCell_quiet (h : SessionsOnly w) (hs : step p l w = some w')
    (hl : ∀ c, l ≠ .apply c) (hno : ∀ ch, changed p l w = some ch → ch.userID ≠ id) :
    CompareSet.Step .quiet (passwordCell id w) (passwordCell id w') := by
  have hstore : w'.store = w.store :=
    (step_store hs).resolve_right (fun ⟨c,_,_,he,_⟩ => hl c he)
  refine .quiet (by simp [passwordCell,hstore]) (fun c => ?_)
  obtain ⟨ws,hws,hissued⟩ := writes_step hs (hl c)
  refine ⟨ws.map (Write.valueAt (passwordPath id)),by simp [passwordCell,hws],
    elsewhere_map (fun x hx hp => ?_)⟩
  rcases hissued with rfl | ⟨r,hr,rfl⟩
  · contradiction
  · obtain ⟨ch,hch,hid⟩ := changed_of_write h hr hx hp
    exact hno ch hch hid

theorem passwordCell_report {ch : PasswordChange} (hs : step p l w = some w')
    (hch : changed p l w = some ch) : CompareSet.Step
      (.report l.client (.leaf (.string ch.oldPassword)) (.leaf (.string ch.newPassword)))
      (passwordCell ch.userID w) (passwordCell ch.userID w') := by
  obtain ⟨c,i,d,r,rfl,_,hr,hw⟩ := reacts_of_changed hch
  obtain ⟨hstore,hwrites⟩ := hr.step hs
  refine .report (by simp [passwordCell,hstore]) ?_ (fun c' hc => ?_)
  · simp [passwordCell,Label.client,hwrites,hw,Write.valueAt,setValue]
  · simp only [passwordCell]
    rw [step_clients_ne hs hc]

theorem passwordCell_apply {c : Nat} (h : SessionsOnly w) (hs : step p (.apply c) w = some w') :
    CompareSet.Step (.apply c) (passwordCell id w) (passwordCell id w') := by
  obtain ⟨x,xs,hx,rfl⟩ := step_apply hs
  refine .apply (o := x.valueAt (passwordPath id)) ?_ ?_ (fun c' hc => ?_)
  · simp [passwordCell,hx]
  · exact ((h.writes c x (by rw [hx]; exact List.mem_cons_self)).valueAt w.store).symm
  · simp [passwordCell,setClient_clients_ne _ _ _ hc]

theorem passwordCell_step (h : SessionsOnly w) (hs : step p l w = some w') :
    CompareSet.Step (cellAction p id l w) (passwordCell id w) (passwordCell id w') := by
  cases hch : changed p l w with
  | some ch =>
    simp only [cellAction,hch]
    split
    · next hid =>
      subst hid
      exact passwordCell_report hs hch
    · next hid =>
      obtain ⟨c,i,d,r,rfl,_⟩ := reacts_of_changed hch
      refine passwordCell_quiet h hs (fun c' he => by cases he) (fun ch' hch' => ?_)
      rw [hch,Option.some.injEq] at hch'
      exact hch' ▸ hid
  | none =>
    simp only [cellAction,hch]
    split
    · exact passwordCell_apply h hs
    · next hl => exact passwordCell_quiet h hs hl (fun ch hch' => by simp [hch] at hch')

theorem current_of_passwordCurrent (hc : PasswordCurrent id l w) :
    CompareSet.Current (cellAction p id l w) (passwordCell id w) := by
  cases hch : changed p l w with
  | none =>
    simp only [cellAction,hch]
    split <;> trivial
  | some ch =>
    simp only [cellAction,hch]
    split
    · next hid =>
      subst hid
      obtain ⟨c,i,d,r,rfl,⟨tab,vc,n,hread,hn,_⟩,_⟩ := reacts_of_changed hch
      obtain ⟨hstored,hnobody,_⟩ := hc tab vc ch.oldPassword n hread hn
      exact ⟨hstored,fun c' => elsewhere_map (hnobody c')⟩
    · trivial

theorem ne_of_passwordCurrent {ch : PasswordChange} (hch : changed p l w = some ch)
    (hc : PasswordCurrent ch.userID l w) {c : Nat} {rd : Pending (Read K) (FNode K)}
    {old : String} (hrd : rd ∈ (w.clients c).reads)
    (hold : rd.read.givenPassword ch.userID = some old) :
    ch.newPassword = ch.oldPassword ∨ ch.newPassword ≠ old := by
  obtain ⟨_,i,d,r,rfl,⟨tab,vc,n,hread,hn,hnew⟩,_⟩ := reacts_of_changed hch
  obtain ⟨_,_,hpending⟩ := hc tab vc ch.oldPassword n hread hn
  rw [hnew] at hpending
  by_cases hsame : ch.newPassword = ch.oldPassword
  · exact Or.inl hsame
  · refine Or.inr (fun he => hpending hsame c rd hrd ?_)
    rw [hold,he]

theorem cellAction_eq_apply {c : Nat} (h : cellAction p id l w = .apply c) : l = .apply c := by
  unfold cellAction at h
  split at h
  · split at h <;> contradiction
  · split at h
    · cases h
      rfl
    · contradiction

theorem cellAction_eq_report {c : Nat} {old new : FNode K}
    (h : cellAction p id l w = .report c old new) :
    ∃ ch, changed p l w = some ch ∧ ch.userID = id ∧ old = .leaf (.string ch.oldPassword) ∧
      new = .leaf (.string ch.newPassword) := by
  unfold cellAction at h
  split at h
  · next ch hch =>
    split at h
    · next hid =>
      cases h
      exact ⟨ch,hch,hid,rfl,rfl⟩
    · contradiction
  · split at h <;> contradiction

def Compared (id : String) (l : Label K) (w : World K) : Prop := NoSignup l ∧ PasswordCurrent id l w

variable {ls : List (Label K)}

theorem owed_of_run {c k : Nat} {old new : FNode K} (h : SessionsOnly w)
    (howed : CompareSet.Owed c old new k (passwordCell id w))
    (hc : Along (step p) (Compared id) ls w) (hr : run (step p) ls w = some w')
    (hk : ls.countP (Label.isApplyOf c) ≤ k) :
    CompareSet.Owed c old new (k - ls.countP (Label.isApplyOf c)) (passwordCell id w') := by
  induction ls generalizing w k with
  | nil =>
    cases hr
    exact howed
  | cons l ls ih =>
    obtain ⟨u,hs,hrest⟩ := (run_cons_eq_some (step p)).mp hr
    have hu := h.step hc.1.1 hs
    by_cases hl : l = .apply c
    · subst hl
      rw [List.countP_cons_of_pos (by simp [Label.isApplyOf])] at hk ⊢
      obtain ⟨k,rfl⟩ := Nat.exists_eq_add_of_le' (Nat.le_of_add_left_le hk)
      rw [Nat.add_sub_add_right]
      exact ih hu (howed.apply (passwordCell_apply h hs)) (hc.2 u hs) hrest (by omega)
    · have hother : ¬ Label.isApplyOf c l = true := by
        cases l with
        | apply c' => simpa [Label.isApplyOf] using hl
        | _ => simp [Label.isApplyOf]
      rw [List.countP_cons_of_neg hother] at hk ⊢
      exact ih hu (howed.step (passwordCell_step h hs) (current_of_passwordCurrent hc.1.2)
        (fun he => hl (cellAction_eq_apply he))) (hc.2 u hs) hrest hk

theorem away_of_run {c i j : Nat} {old : String} {rd rd' : Pending (Read K) (FNode K)}
    (h : SessionsOnly w)
    (haway : CompareSet.Away (.leaf (.string old)) (passwordCell id w))
    (hc : Along (step p) (Compared id) ls w) (hr : run (step p) ls w = some w')
    (hi : (w.clients c).reads[i]? = some rd) (hold : rd.read.givenPassword id = some old)
    (hj : placeAfter c ls i = some j) (hrd : (w'.clients c).reads[j]? = some rd') :
    CompareSet.Away (.leaf (.string old)) (passwordCell id w') := by
  induction ls generalizing w i rd with
  | nil =>
    cases hr
    exact haway
  | cons l ls ih =>
    obtain ⟨u,hs,hrest⟩ := (run_cons_eq_some (step p)).mp hr
    obtain ⟨k,hk,hj⟩ := Option.bind_eq_some_iff.mp hj
    have hnext : CompareSet.Away (.leaf (.string old)) (passwordCell id u) := by
      refine haway.step (passwordCell_step h hs) (current_of_passwordCurrent hc.1.2) ?_
      intro c' found new he
      obtain ⟨ch,hch,rfl,rfl,rfl⟩ := cellAction_eq_report he
      rcases ne_of_passwordCurrent hch hc.1.2 (List.mem_of_getElem? hi) hold with hsame | hne
      · exact Or.inl (by rw [hsame])
      · exact Or.inr (by simpa using hne)
    rcases read_of_step hs hi hk with hstop | ⟨rd₁,hi₁,hsame⟩
    · rw [(hstop.run hrest).reads] at hrd
      contradiction
    · exact ih (h.step hc.1.1 hs) hnext (hc.2 u hs) hrest hi₁ (hsame ▸ hold) hj

section
variable {store : FNode K} {as bs : List (Label K)} {u v : World K} {c i : Nat} {d : Draw K}
  {ch : PasswordChange}

theorem compared_of_prefix (hc : Along (step p) (Compared id) ls (World.start store))
    (hp : as ++ bs <+: ls) (hu : run (step p) as (World.start store) = some u) :
    SessionsOnly u ∧ Along (step p) (Compared id) bs u := by
  obtain ⟨cs,rfl⟩ := hp
  rw [List.append_assoc] at hc
  obtain ⟨has,hrest⟩ := (along_append (step p) hu).mp hc
  exact ⟨run_invariant (I := SessionsOnly) (step p) (fun l u u' hi hc hs => hi.step hc.1 hs)
    (sessionsOnly_start store) has hu,hrest.left (step p)⟩

theorem owed_of_changed (hc : Along (step p) (Compared ch.userID) ls (World.start store))
    (hp : as ++ .deliver c i d :: bs <+: ls) (hu : run (step p) as (World.start store) = some u)
    (hch : changed p (.deliver c i d) u = some ch)
    (hv : run (step p) (.deliver c i d :: bs) u = some v)
    (hcount : bs.countP (Label.isApplyOf c) ≤ (u.clients c).writes.length) :
    CompareSet.Owed c (.leaf (.string ch.oldPassword)) (.leaf (.string ch.newPassword))
      ((u.clients c).writes.length - bs.countP (Label.isApplyOf c))
      (passwordCell ch.userID v) := by
  obtain ⟨h,hrest⟩ := compared_of_prefix hc hp hu
  obtain ⟨u',hs,hbs⟩ := (run_cons_eq_some (step p)).mp hv
  have hcurrent := current_of_passwordCurrent (p := p) hrest.1.2
  rw [cellAction_of_changed hch] at hcurrent
  have hreport := CompareSet.owed_of_report (passwordCell_report hs hch) hcurrent
  simp only [Label.client,passwordCell,List.length_map] at hreport
  exact owed_of_run (h.step hrest.1.1 hs) hreport (hrest.2 u' hs) hbs hcount

/-- Of two overlapping changes from one password the second one does not find it. -/
theorem eq_of_overlap {ch' : PasswordChange}
    (hc : Along (step p) (Compared ch.userID) ls (World.start store))
    (h : Overlap p ls store ch ch') (hid : ch'.userID = ch.userID)
    (hold : ch.oldPassword = ch'.oldPassword) : ch.newPassword = ch.oldPassword := by
  by_contra hne
  obtain @⟨as,bs,cs,c,c',i,i',j,d,d',u,v,v',_,_,hp,hu,hch,hv,hwrite,hasked,hplace,hv',hch'⟩ := h
  have hprefix : as ++ .deliver c i d :: bs <+: ls := by
    refine (List.prefix_append _ (cs ++ [.deliver c' j d'])).trans ?_
    rwa [← List.append_assoc]
  have haway : CompareSet.Away (.leaf (.string ch'.oldPassword)) (passwordCell ch.userID v) :=
    hold ▸ (owed_of_changed hc hprefix hu hch hv hwrite).away (by simpa using hne)
  have hsplit : (as ++ .deliver c i d :: bs) ++ (cs ++ [.deliver c' j d']) <+: ls := by
    rwa [← List.append_assoc]
  obtain ⟨hsession,hcs⟩ := compared_of_prefix hc hsplit
    ((run_append_eq_some (step p)).mpr ⟨u,hu,hv⟩)
  obtain ⟨_,_,_,_,hl,⟨tab,vc,_,hread,_⟩,_⟩ := reacts_of_changed hch'
  cases hl
  -- the read that is answered now had been asked for when `bs` was over
  have hsame := read_of_run hv' (List.getElem?_eq_getElem hasked) hplace hread
  have hgiven : ((v.clients c').reads[i']).read.givenPassword ch.userID =
      some ch'.oldPassword := by
    rw [← hsame]
    simp [Read.givenPassword,hid]
  have hend := away_of_run hsession haway (hcs.left (step p)) hv'
    (List.getElem?_eq_getElem hasked) hgiven hplace hread
  have hcurrent := current_of_passwordCurrent (p := p) ((along_append (step p) hv').mp hcs).2.1.2
  rw [← hid,cellAction_of_changed hch'] at hcurrent
  rw [← hid] at hend
  exact hend.not_current hcurrent

end

/-- When every change that is reported is current, changes are compare-and-set. -/
theorem compareAndSet_of_current (p : Platform K) (id : String) (store : FNode K)
    (ls : List (Label K)) (hl : ∀ l ∈ ls, NoSignup l)
    (hc : Along (step p) (PasswordCurrent id) ls (World.start store)) :
    CompareAndSet p id ls store := by
  have halong : Along (step p) (Compared id) ls (World.start store) :=
    (along_of_forall_mem (step p) hl _).and (step p) hc
  constructor
  · rintro as bs c i d ch u v hp hu hch rfl hv hcount
    exact (owed_of_changed halong ((List.prefix_append _ _).trans hp) hu hch hv hcount.le).stored
  · rintro ch ch' hoverlap rfl hid hold _ hne _
    exact hne (eq_of_overlap halong hoverlap hid hold)

end

def askBoth : List (Label ℚ) :=
  login 0 sampleDraw "ann" "pw" ++ login 1 sampleDraw "ann" "pw" ++
    (askNewPassword 0 sampleDraw 0 0 "pw" "a").take 3 ++
    (askNewPassword 1 sampleDraw 0 0 "pw" "b").take 3 ++
    [.snapshot 0 0,.snapshot 1 0,.deliver 0 0 sampleDraw]

/-- Both report success, and the second write replaces the password of the first. -/
theorem not_compareAndSet : ¬ ∀ (id : String) (store : FNode ℚ) (ls : List (Label ℚ)),
    (∀ l ∈ ls, NoSignup l) → CompareAndSet planePlatform id ls store := by
  intro h
  have hrun : (run (step planePlatform) askBoth (World.start annStore)).map (fun u =>
      ((changed planePlatform (.deliver 1 0 sampleDraw) u).map
          (fun ch => (ch.userID,ch.oldPassword)),
        (u.clients 1).writes.length,
        (run (step planePlatform) [.deliver 1 0 sampleDraw,.apply 0] u).map (fun v =>
          (NewPasswordVC.truePassword (v.store.getChild (passwordPath "0"))).toOption))) =
      some (some ("0","pw"),0,some (some "a")) := by
    decide +kernel
  obtain ⟨u,hu,he⟩ := Option.map_eq_some_iff.mp hrun
  simp only [Prod.mk.injEq] at he
  obtain ⟨hchanged,hlength,hv⟩ := he
  obtain ⟨ch,hch,hpair⟩ := Option.map_eq_some_iff.mp hchanged
  obtain ⟨v,hv,hpassword⟩ := Option.map_eq_some_iff.mp hv
  simp only [Prod.mk.injEq] at hpair
  have hset := h "0" annStore (askBoth ++ .deliver 1 0 sampleDraw :: [.apply 0] ++ [.apply 1])
    (by decide +kernel)
  have hold := hset.replaces askBoth [.apply 0] 1 0 sampleDraw ch u v (List.prefix_refl _) hu hch
    hpair.1 hv (by rw [hlength]; rfl)
  rw [hold,hpair.2] at hpassword
  contradiction

/-- Three changes of two devices. The second one is asked for before the first one is applied,
and finds its old password gone. -/
def changesInTurn : List (Label ℚ) :=
  login 0 sampleDraw "ann" "pw" ++ login 1 sampleDraw "ann" "pw" ++
    (askNewPassword 0 sampleDraw 0 0 "pw" "a").take 3 ++
    (askNewPassword 1 sampleDraw 0 0 "pw" "b").take 3 ++ answer 0 sampleDraw ++ applyAll 0 1 ++
    answer 1 sampleDraw ++ askNewPassword 1 sampleDraw 0 1 "a" "c" ++ applyAll 1 1

def PasswordCurrentAmong (A : List Nat) (id : String) (l : Label ℚ) (w : World ℚ) : Prop :=
  match l with
  | .deliver c i _ =>
    match (w.clients c).reads[i]? with
    | some ⟨.changeIfValidPassword tab vc old userID,some (.leaf (.string s))⟩ =>
      userID = id ∧ old = s → ∀ n ∈ (w.clients c).locals.newPasswordVC tab vc,
        (NewPasswordVC.truePassword (w.store.getChild (passwordPath id))).toOption = some old ∧
        (∀ c' ∈ A, ∀ x ∈ (w.clients c').writes, x.path ≠ passwordPath id) ∧
        (n.newPasswordOutlet ≠ old → ∀ c' ∈ A, ∀ rd ∈ (w.clients c').reads,
          rd.read.givenPassword id ≠ some n.newPasswordOutlet)
    | _ => True
  | _ => True

instance (A : List Nat) (id : String) (l : Label ℚ) (w : World ℚ) :
    Decidable (PasswordCurrentAmong A id l w) := by
  unfold PasswordCurrentAmong
  split
  · split <;> infer_instance
  · infer_instance

theorem passwordCurrent_of_among {A : List Nat} {id : String} {store : FNode ℚ} {l : Label ℚ}
    {w : World ℚ} (hw : ∀ c, c ∉ A → w.clients c = (World.start store).clients c)
    (h : PasswordCurrentAmong A id l w) : PasswordCurrent id l w := by
  cases l with
  | deliver c i d =>
    intro tab vc old n hread hn
    simp only [PasswordCurrentAmong,hread] at h
    obtain ⟨hstored,hwrites,hreads⟩ := h ⟨trivial,trivial⟩ n hn
    refine ⟨?_,fun c' => ?_,fun hne c' => ?_⟩
    · cases hpassword : NewPasswordVC.truePassword (w.store.getChild (passwordPath id)) with
      | error t => simp [hpassword,Except.toOption] at hstored
      | ok password =>
        obtain rfl : password = old := by simpa [hpassword,Except.toOption] using hstored
        exact truePassword_eq_ok hpassword
    · exact forall_clients_of_mem (R := fun cl => ∀ x ∈ cl.writes, x.path ≠ passwordPath id) hw
        (fun _ x hx => by contradiction) hwrites c'
    · exact forall_clients_of_mem (R := fun cl => ∀ rd ∈ cl.reads,
        rd.read.givenPassword id ≠ some n.newPasswordOutlet) hw
        (fun _ rd hrd => by contradiction) (hreads hne) c'
  | event c e => trivial
  | snapshot c i => trivial
  | apply c => trivial

theorem compareAndSet_changesInTurn : ∃ w,
    run (step planePlatform) changesInTurn (World.start annStore) = some w ∧
    NewPasswordVC.truePassword (w.store.getChild (passwordPath "0")) = .ok "c" ∧
    CompareAndSet planePlatform "0" changesInTurn annStore := by
  have hrun : (run (step planePlatform) changesInTurn (World.start annStore)).map (fun w =>
      (NewPasswordVC.truePassword (w.store.getChild (passwordPath "0"))).toOption) =
        some (some "c") := by
    decide +kernel
  obtain ⟨w,hw,hpassword⟩ := Option.map_eq_some_iff.mp hrun
  refine ⟨w,hw,?_,compareAndSet_of_current planePlatform _ _ _ (by decide +kernel) ?_⟩
  · cases he : NewPasswordVC.truePassword (w.store.getChild (passwordPath "0")) with
    | error t => simp [he,Except.toOption] at hpassword
    | ok password => simpa [he,Except.toOption] using hpassword
  · have hcheck : Along (step planePlatform) (PasswordCurrentAmong [0,1] "0") changesInTurn
        (World.start annStore) := by
      decide +kernel
    exact along_of_clients (A := [0,1]) (by decide +kernel)
      (fun l u hu hl => passwordCurrent_of_among hu hl) hcheck

end GFLGO
