import GFLGO.Sequential

/-! The locations of the accounts against the reports of their sessions, in any run. -/

set_option autoImplicit false

namespace GFLGO

open Runs Async AccountMap

section
variable {K : Type}

def IsNumber (t : FNode K) : Prop := (∃ x, t = .leaf (.double x)) ∨ ∃ n, t = .leaf (.int n)

def HasLocation (id : Int) (users : FNode K) : Prop :=
  IsNumber (users.getChild [stringOfInt id,"latitude"]) ∧
    IsNumber (users.getChild [stringOfInt id,"longitude"])

theorem hasLocation_iff {id : Int} {users : FNode K} : HasLocation id users ↔
    HoldsNumber "latitude" (users.getImmediateChild (stringOfInt id)) ∧
      HoldsNumber "longitude" (users.getImmediateChild (stringOfInt id)) := Iff.rfl

/-- A session of the account has reported a location to the database. -/
def Reported (id : Int) (w : World K) : Prop := ∃ c, (c,Note.locationWritten id) ∈ w.notes

theorem reported_react {id : Int} {w : World K} {c : Nat} {cl : Client K}
    {r : Except Trap (DeviceReaction K)} :
    Reported id (w.react c cl r) ↔ Reported id w ∨ Note.locationWritten id ∈ notesOf r := by
  constructor
  · rintro ⟨c',h⟩
    rcases List.mem_append.mp h with hold | hnew
    · exact Or.inl ⟨c',hold⟩
    · obtain ⟨n,hn,he⟩ := List.mem_map.mp hnew
      cases he
      exact Or.inr hn
  · rintro (⟨c',h⟩ | h)
    · exact ⟨c',List.mem_append_left _ h⟩
    · exact ⟨c,List.mem_append_right _ (List.mem_map_of_mem h)⟩

structure Unreported (w : World K) : Prop where
  store : ∀ id, ¬ Reported id w →
    ¬ IsNumber ((w.store.getImmediateChild "users").getChild [stringOfInt id,"latitude"])
  writes : ∀ id, ¬ Reported id w → ∀ c, ∀ x ∈ (w.clients c).writes,
    x.path ≠ ["users",stringOfInt id,"latitude"]
  snapshots : ∀ id, ¬ Reported id w → ∀ c, ∀ r ∈ (w.clients c).reads, ∀ s,
    r.snapshot = some s → r.read.path = ["users"] →
      ¬ IsNumber (s.getChild [stringOfInt id,"latitude"])

theorem latitude_of_locationWrites {user : User K} {id : Int} (h : user.userID ≠ id)
    (c : Coordinate K) :
    ∀ x ∈ MapVC.locationWrites user c, x.path ≠ ["users",stringOfInt id,"latitude"] := by
  have hne : stringOfInt user.userID ≠ stringOfInt id := fun he => h (stringOfInt_injective he)
  intro x hx
  rcases List.mem_pair.mp hx with rfl | rfl
  · simp [setValue,hne]
  · simp [setValue]

theorem KeysOk.latitude_apply {n : Nat} {x : Write K} {xs : List (Write K)} {store : FNode K}
    {key : String} (h : KeysOk n n (x :: xs)) (hx : x.path ≠ ["users",key,"latitude"])
    (hs : ¬ IsNumber (store.getChild ["users",key,"latitude"])) :
    ¬ IsNumber ((applyWrite x store).getChild ["users",key,"latitude"]) := by
  cases h with
  | @record _ k v _ hk h =>
    by_cases he : key = stringOfInt k
    · subst he
      rw [setValue,show ["users",stringOfInt k,"latitude"] = ["users",stringOfInt k] ++ ["latitude"]
        from rfl,PathTree.getChild_append,getChild_applyWrite_self]
      simp [IsNumber,PathTree.getChild_singleton,PathTree.empty_ne_leaf]
    · rw [setValue,getChild_applyWrite_key store "users" _ _ _ he]
      exact hs
  | @field _ k f v _ hk h =>
    by_cases hf : "latitude" = f
    · subst hf
      have he : key ≠ stringOfInt k := by
        rintro rfl
        exact hx rfl
      rw [setValue,getChild_applyWrite_key store "users" _ _ _ he]
      exact hs
    · rw [setValue,getChild_applyWrite_field store "users" _ _ _ hf]
      exact hs
  | enemy h =>
    rw [getChild_applyWrite_coll store _ _ _ (by decide)]
    exact hs

theorem unreported_start : Unreported (World.start (.empty : FNode K)) := by
  refine ⟨fun id _ => ?_,fun id _ c x hx => by simp [World.start] at hx,
    fun id _ c r hr => by simp [World.start] at hr⟩
  simp [World.start,IsNumber,PathTree.getChild_cons,PathTree.empty_ne_leaf]

section
variable [Field K] [LinearOrder K]

variable [FloorRing K]

theorem ReadOutcome.latitude {p : Platform K} {snapshot : FNode K} {draw : Draw K}
    {d : Device K} {q : Read K} {r : DeviceReaction K} (h : ReadOutcome p snapshot draw d q r)
    (id : Int) : ∀ x ∈ r.writes, x.path = ["users",stringOfInt id,"latitude"] →
      Note.locationWritten id ∈ r.notes := by
  intro x hx hpath
  cases h with
  | addUser hv =>
    rcases userWrites_path _ _ x hx with hnode | ⟨f,hf,hfield⟩
    · simp [hnode] at hpath
    · simp only [hfield,List.cons.injEq] at hpath
      rw [hpath.2.2.1] at hf
      simp at hf
  | passwordChanged hleaf ht hn =>
    rw [List.mem_singleton.mp hx] at hpath
    simp [setValue] at hpath
  | @map _ t _ _ ht hr =>
    obtain ⟨_,⟨c,_,hw,hn⟩ | ⟨enemy,_,hw,_⟩ | ⟨hw,_⟩⟩ := MapVC.onRead_effect hr
    · simp only [Device.ofMap,hw] at hx
      by_cases hid : t.map.user.userID = id
      · simp [Device.ofMap,hn,hid]
      · exact absurd hpath (latitude_of_locationWrites hid c x hx)
    · simp only [Device.ofMap,hw] at hx
      obtain ⟨rest,henemies⟩ := enemyWrites_path enemy x hx
      simp [henemies] at hpath
    · simp [Device.ofMap,hw] at hx
  | _ => contradiction

theorem Reported.step {p : Platform K} {l : Label K} {w w' : World K} {id : Int}
    (h : Reported id w) (hs : GFLGO.step p l w = some w') : Reported id w' := by
  obtain ⟨c,hn⟩ := h
  obtain ⟨ns,hnotes⟩ := notes_of_step hs
  refine ⟨c,?_⟩
  rw [hnotes]
  exact List.mem_append_left _ hn

theorem reported_of_reacts {p : Platform K} {l : Label K} {w w' : World K} {id : Int} {c : Nat}
    {r : DeviceReaction K} {x : Write K} (hr : Reacts (program p) w c r l)
    (hs : GFLGO.step p l w = some w') (hx : x ∈ r.writes)
    (hpath : x.path = ["users",stringOfInt id,"latitude"]) : Reported id w' := by
  have hnote : Note.locationWritten id ∈ r.notes := by
    cases hr with
    | event hr =>
      rcases onEvent_effect hr with ⟨hw,_⟩ | ⟨user,s,hw,_⟩
      · simp [hw] at hx
      · rw [hw] at hx
        rcases List.mem_pair.mp hx with rfl | rfl <;>
          simp [GameScene.removeEnemyFromFirebase,removeValue,User.addExperience,setValue] at hpath
    | deliver hq hr => exact (onRead_outcome hr).latitude id x hx hpath
  refine ⟨c,?_⟩
  rw [hr.notes hs]
  exact List.mem_append_right _ (List.mem_map_of_mem hnote)

theorem Unreported.step {p : Platform K} {l : Label K} {w w' : World K} {n : Nat}
    (h : Unreported w) (hk : KeysInv n w) (hs : GFLGO.step p l w = some w') : Unreported w' := by
  refine ⟨fun id hn => ?_,fun id hn c x hx => ?_,fun id hn c rd hrd s hsnap hpath => ?_⟩ <;>
    have hold : ¬ Reported id w := fun hrep => hn (hrep.step hs)
  · rcases step_store hs with hsame | ⟨c,x,xs,_,hx,hstore⟩
    · exact hsame ▸ h.store id hold
    · rw [hstore]
      refine (hx ▸ (hk.clients c).writes).latitude_apply (h.writes id hold c x ?_) (h.store id hold)
      rw [hx]
      exact List.mem_cons_self
  · rcases mem_writes_step hs hx with hmem | ⟨r,hr,hnew⟩
    · exact h.writes id hold c x hmem
    · exact fun hpath => hn (reported_of_reacts hr hs hnew hpath)
  · rcases snapshot_of_step hs hrd hsnap with hmem | ⟨i,_,_,hview⟩
    · exact h.snapshots id hold c rd hmem s hsnap hpath
    · rw [hview,view_users hpath]
      exact h.store id hold

end

end

end GFLGO
