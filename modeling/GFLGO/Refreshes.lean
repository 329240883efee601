import GFLGO.Annotations

/-!
Orders in which the map shows each thing once: a refresh, and a spawn, comes when
the fills of the last refresh have been answered.
-/

set_option autoImplicit false

namespace GFLGO

open Runs Async

namespace MapVC

section
variable {K : Type}

def fillsEnemies : MapRead K → Bool
  | .findEnemiesAroundUser => true
  | _ => false

def fillsPlayers : MapRead K → Bool
  | .findPlayersAroundUser => true
  | _ => false

/-- The event clears the map, and asks for what fills it again. -/
def refreshes (m : MapVC K) : MapEvent K → Bool
  | .viewWillAppear => !m.firstCenter
  | .didUpdateLocations _ => m.firstCenter
  | .centerAction => true
  | _ => false

/-- One answer at most is to fill the list, which is empty until then. -/
structure Filling {α : Type} (f : MapRead K → Bool) (reads : List (MapRead K))
    (shown : List α) : Prop where
  once : reads.countP f ≤ 1
  cleared : 0 < reads.countP f → shown = []

section
variable {α : Type} {f : MapRead K → Bool} {reads : List (MapRead K)} {shown shown' : List α}

theorem filling_of_countP_eq_zero (h : reads.countP f = 0) : Filling f reads shown :=
  ⟨by omega,fun hpos => by omega⟩

theorem Filling.append (h : Filling f reads shown) {new : List (MapRead K)}
    (hn : new.countP f = 0) : Filling f (reads ++ new) shown := by
  have hcount : (reads ++ new).countP f = reads.countP f := by
    rw [List.countP_append,hn,Nat.add_zero]
  exact ⟨hcount ▸ h.once,fun hpos => h.cleared (hcount ▸ hpos)⟩

theorem filling_of_clear (h : reads.countP f = 0) {new : List (MapRead K)}
    (hn : new.countP f ≤ 1) : Filling f (reads ++ new) ([] : List α) := by
  refine ⟨?_,fun _ => rfl⟩
  rw [List.countP_append,h,Nat.zero_add]
  exact hn

theorem Filling.answered (h : Filling f reads shown) {i : Nat} {q : MapRead K}
    (hi : reads[i]? = some q) (hq : f q = true) : Filling f (reads.eraseIdx i) shown' := by
  have hcount := countP_eraseIdx f hi
  rw [hq] at hcount
  exact filling_of_countP_eq_zero (by have := h.once; simp at hcount; omega)

theorem Filling.eraseIdx (h : Filling f reads shown) (i : Nat) :
    Filling f (reads.eraseIdx i) shown := by
  have hle := (List.eraseIdx_sublist reads i).countP_le (p := f)
  exact ⟨hle.trans h.once,fun hpos => h.cleared (hpos.trans_le hle)⟩

end

variable [Field K]

theorem onEvent_refreshes {p : Platform K} {e : MapEvent K} {m : MapVC K} {r : MapReaction K}
    (h : m.onEvent p e = .ok r) (he : ∀ d, e ≠ .addEnemyAction d) :
    (m.refreshes e = true ∧ r.locals.enemyAnnotations = [] ∧ r.locals.userAnnotations = [] ∧
        r.reads.countP fillsEnemies = 1 ∧ r.reads.countP fillsPlayers = 1) ∨
      (m.refreshes e = false ∧ r.locals.enemyAnnotations = m.enemyAnnotations ∧
        r.locals.userAnnotations = m.userAnnotations ∧
        r.reads.countP fillsEnemies = 0 ∧ r.reads.countP fillsPlayers = 0) := by
  cases e with
  | viewWillAppear =>
    cases h
    cases hf : m.firstCenter with
    | true => exact Or.inr (by simp [refreshes,viewWillAppear,hf])
    | false =>
      refine Or.inl ⟨by simp [refreshes,hf],?_⟩
      simp only [viewWillAppear,hf,Bool.false_eq_true,if_false]
      exact ⟨rfl,rfl,rfl,rfl⟩
  | didUpdateLocations locations =>
    obtain ⟨c,_,h⟩ := bind_eq_ok.mp h
    obtain ⟨r',hr,h⟩ := bind_eq_ok.mp h
    cases h
    cases hf : m.firstCenter with
    | true =>
      simp only [setUserLocation,hf,if_true,centerMap,unwrap_some,bind,Except.bind] at hr
      cases hr
      exact Or.inl ⟨hf,rfl,rfl,rfl,rfl⟩
    | false =>
      simp only [setUserLocation,hf,Bool.false_eq_true,if_false] at hr
      cases hr
      exact Or.inr ⟨hf,rfl,rfl,rfl,rfl⟩
  | centerAction =>
    obtain ⟨m',hm,h⟩ := bind_eq_ok.mp h
    cases h
    exact Or.inl ⟨rfl,rfl,rfl,rfl,rfl⟩
  | addEnemyAction d => exact absurd rfl (he d)
  | didSelect i =>
    cases h
    refine Or.inr ⟨rfl,?_,?_,rfl,rfl⟩ <;> (simp only [didSelect]; split <;> rfl)
  | touchesBegan onCallout =>
    cases h
    refine Or.inr ⟨rfl,?_,?_,rfl,rfl⟩ <;> (simp only [touchesBegan]; split <;> rfl)
  | viewDidDisappear =>
    cases h
    exact Or.inr ⟨rfl,rfl,rfl,rfl,rfl⟩
  | timerTick =>
    cases h
    exact Or.inr ⟨rfl,rfl,rfl,rfl,rfl⟩

variable [LinearOrder K] [FloorRing K]

/-- A refresh comes when no fill is pending. So does a spawn, whose identifier is new, and the
keys of the other players are different numbers. -/
def RefreshesInTurn (p : Platform K) : MapInput K → MapProcess K → Prop
  | .event (.addEnemyAction d), s =>
    s.reads.countP fillsEnemies = 0 ∧ NewSpawn p d s.locals
  | .event e, s => s.locals.refreshes e = true →
    s.reads.countP fillsEnemies = 0 ∧ s.reads.countP fillsPlayers = 0
  | .deliver i snapshot d, s =>
    match s.reads[i]? with
    | some .findPlayersAroundUser => (snapshot.childKeys.map intOfString).Nodup
    | some .getNumberOfEnemiesAroundUser => CountSpawns p snapshot d s.locals →
      s.reads.countP fillsEnemies = 0 ∧ NewSpawn p d s.locals
    | _ => True

structure FillsInTurn (s : MapProcess K) : Prop where
  enemies : Filling fillsEnemies s.reads s.locals.enemyAnnotations
  players : Filling fillsPlayers s.reads s.locals.userAnnotations

variable {p : Platform K} {inp : MapInput K} {s s' : MapProcess K}

theorem FillsInTurn.addsNew (hi : FillsInTurn s) (hc : RefreshesInTurn p inp s) :
    AddsNew p inp s := by
  cases inp with
  | event e =>
    cases e with
    | addEnemyAction d => exact fun _ => hc.2
    | _ => trivial
  | deliver i snapshot d =>
    simp only [RefreshesInTurn,AddsNew] at hc ⊢
    cases hq : s.reads[i]? with
    | none => trivial
    | some q =>
      rw [hq] at hc
      have hmem := List.mem_of_getElem? hq
      cases q with
      | findEnemiesAroundUser =>
        have hclear := hi.enemies.cleared (List.countP_pos_iff.mpr ⟨_,hmem,rfl⟩)
        exact ⟨fun _ child _ => by simp [shownEnemies,hclear]⟩
      | findPlayersAroundUser =>
        have hclear := hi.players.cleared (List.countP_pos_iff.mpr ⟨_,hmem,rfl⟩)
        refine ⟨fun _ _ => ⟨?_,fun child _ userID _ => by simp [shownPlayers,hclear]⟩⟩
        have hkeys : (snapshot.childKeys.map intOfString).Nodup := hc
        rw [PathTree.childKeys,Dictionary.keys,List.map_map] at hkeys
        exact hkeys.sublist ((nearChildren_sublist.trans List.filter_sublist).map _)
      | getNumberOfEnemiesAroundUser => exact fun hspawn => (hc hspawn).2
      | _ => trivial

omit [FloorRing K] in
theorem FillsInTurn.onEvent {e : MapEvent K} {r : MapReaction K} (hi : FillsInTurn s)
    (hc : RefreshesInTurn p (.event e) s) (hr : s.locals.onEvent p e = .ok r) :
    Filling fillsEnemies (s.reads ++ r.reads) r.locals.enemyAnnotations ∧
      Filling fillsPlayers (s.reads ++ r.reads) r.locals.userAnnotations := by
  by_cases he : ∃ d, e = .addEnemyAction d
  · obtain ⟨d,rfl⟩ := he
    obtain ⟨enemy,hs⟩ := spawn_of_ok hr
    rw [hs.reads,hs.locals]
    refine ⟨filling_of_countP_eq_zero ?_,hi.players.append rfl⟩
    rw [List.countP_append,hc.1]
    rfl
  · have hne : ∀ d, e ≠ .addEnemyAction d := fun d hd => he ⟨d,hd⟩
    have hfree : s.locals.refreshes e = true →
        s.reads.countP fillsEnemies = 0 ∧ s.reads.countP fillsPlayers = 0 := by
      cases e with
      | addEnemyAction d => exact absurd rfl (hne d)
      | _ => exact hc
    rcases onEvent_refreshes hr hne with ⟨hyes,hE,hP,hcE,hcP⟩ | ⟨_,hE,hP,hcE,hcP⟩
    · rw [hE,hP]
      exact ⟨filling_of_clear (hfree hyes).1 hcE.le,filling_of_clear (hfree hyes).2 hcP.le⟩
    · rw [hE,hP]
      exact ⟨hi.enemies.append hcE,hi.players.append hcP⟩

theorem FillsInTurn.onRead {i : Nat} {q : MapRead K} {snapshot : FNode K} {d : Draw K}
    {r : MapReaction K} (hi : FillsInTurn s) (hq : s.reads[i]? = some q)
    (hc : RefreshesInTurn p (.deliver i snapshot d) s)
    (hr : s.locals.onRead p q snapshot d = .ok r) :
    Filling fillsEnemies (s.reads.eraseIdx i ++ r.reads) r.locals.enemyAnnotations ∧
      Filling fillsPlayers (s.reads.eraseIdx i ++ r.reads) r.locals.userAnnotations := by
  have hE := hi.enemies.eraseIdx i
  have hP := hi.players.eraseIdx i
  cases q with
  | findEnemiesAroundUser =>
    obtain ⟨enemies,_,h⟩ := bind_eq_ok.mp hr
    cases h
    exact ⟨(hi.enemies.answered hq rfl).append rfl,hP.append rfl⟩
  | findPlayersAroundUser =>
    obtain ⟨players,_,h⟩ := bind_eq_ok.mp hr
    cases h
    exact ⟨hE.append rfl,(hi.players.answered hq rfl).append rfl⟩
  | getNumberOfEnemiesAroundUser =>
    simp only [RefreshesInTurn,hq] at hc
    rcases onRead_count hr with ⟨hspawns,enemy,hs⟩ | ⟨_,rfl⟩
    · rw [hs.reads,hs.locals]
      refine ⟨(filling_of_countP_eq_zero ?_).append rfl,hP.append rfl⟩
      have hcount := countP_eraseIdx fillsEnemies hq
      have hfree := (hc hspawns).1
      omega
    · exact ⟨hE.append rfl,hP.append rfl⟩
  | didUpdateLocations c =>
    cases hr
    exact ⟨hE.append rfl,hP.append rfl⟩
  | addEnemyToFirebase enemy =>
    cases hr
    exact ⟨hE.append rfl,hP.append rfl⟩

theorem FillsInTurn.step (hi : FillsInTurn s) (hc : RefreshesInTurn p inp s)
    (h : step p inp s = some s') : FillsInTurn s' := by
  cases inp with
  | event e =>
    simp only [MapVC.step,Process.step] at h
    split at h
    · contradiction
    · cases h
      simp only [program]
      cases hr : s.locals.onEvent p e with
      | error t => exact ⟨filling_of_countP_eq_zero rfl,filling_of_countP_eq_zero rfl⟩
      | ok r =>
        obtain ⟨hE,hP⟩ := hi.onEvent hc hr
        exact ⟨hE,hP⟩
  | deliver i snapshot d =>
    simp only [MapVC.step,Process.step] at h
    split at h
    · next q hq =>
      cases h
      simp only [program]
      cases hr : s.locals.onRead p q snapshot d with
      | error t => exact ⟨filling_of_countP_eq_zero rfl,filling_of_countP_eq_zero rfl⟩
      | ok r =>
        obtain ⟨hE,hP⟩ := hi.onRead hq hc hr
        exact ⟨hE,hP⟩
    · contradiction

/-- When refreshes and spawns come between the fills, the map shows each thing once. -/
theorem mapShowsOnce_of_refreshesInTurn (p : Platform K) (user : User K)
    (inps : List (MapInput K)) (hk : ∀ inp ∈ inps, UniqueKeys inp)
    (hc : Along (step p) (RefreshesInTurn p) inps (viewDidLoad user)) :
    MapShowsOnce p user inps := by
  refine mapShowsOnce_of_addsNew hk ?_
  exact hc.mono_of_invariant (I := FillsInTurn) (step p)
    (fun _ _ _ hi hcond hs => hi.step hcond hs)
    (fun _ _ hi hcond => hi.addsNew hcond)
    ⟨filling_of_countP_eq_zero rfl,filling_of_countP_eq_zero rfl⟩

end

end MapVC

end GFLGO
