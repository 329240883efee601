import Mathlib.Data.List.Infix
import GFLGO.PathTree

/-!
Writes to a tree of paths, one after the other, and what they settle without
the tree: the overlay of a list of writes gives, for each path, the subtree
that any tree has there after them, when they fix one.
-/

set_option autoImplicit false

namespace Overlay

variable {κ ν : Type}

/-- Neither path leads on from the other. -/
def Apart (p q : List κ) : Prop := ¬ p <+: q ∧ ¬ q <+: p

theorem Apart.symm {p q : List κ} (h : Apart p q) : Apart q p := ⟨h.2,h.1⟩

theorem Apart.below {p q x : List κ} (h : Apart p q) (hx : p <+: x) : Apart x q := by
  refine ⟨fun hq => h.1 (hx.trans hq),fun hq => ?_⟩
  rcases List.prefix_or_prefix_of_prefix hx hq with hp | hp
  · exact h.1 hp
  · exact h.2 hp

def leaf? : PathTree κ ν → Option ν
  | .leaf v => some v
  | .branch _ => none

variable [DecidableEq κ] [KeyOrder κ]

/-- What one more write makes of the subtree at a path that is known so far. -/
def cover (p : List κ) (known : Option (PathTree κ ν)) (w : List κ × PathTree κ ν) :
    Option (PathTree κ ν) :=
  if w.1 <+: p then some (w.2.getChild (p.drop w.1.length))
  else if p <+: w.1 then known.map (fun t => t.updateChild (w.1.drop p.length) w.2)
  else known

/-- What the writes fix at a path. -/
def overlay (ws : List (List κ × PathTree κ ν)) (p : List κ) : Option (PathTree κ ν) :=
  ws.foldl (cover p) none

def replay (ws : List (List κ × PathTree κ ν)) (t : PathTree κ ν) : PathTree κ ν :=
  ws.foldl (fun t w => t.updateChild w.1 w.2) t

section
variable {p q : List κ} {t u : PathTree κ ν} {ws vs : List (List κ × PathTree κ ν)}
  {w : List κ × PathTree κ ν} {known : Option (PathTree κ ν)}

theorem cover_above (h : w.1 <+: p) :
    cover p known w = some (w.2.getChild (p.drop w.1.length)) := if_pos h

theorem cover_inside (h : ¬ w.1 <+: p) (h' : p <+: w.1) :
    cover p known w = known.map (fun t => t.updateChild (w.1.drop p.length) w.2) := by
  rw [cover,if_neg h,if_pos h']

theorem cover_of_apart (h : Apart w.1 p) : cover p known w = known := by
  rw [cover,if_neg h.1,if_neg h.2]

theorem cover_none (h : ¬ w.1 <+: p) : cover p none w = none := by
  rw [cover,if_neg h]
  split <;> rfl

theorem cover_isSome (h : known.isSome) : (cover p known w).isSome := by
  rw [cover]
  split
  · rfl
  · split
    · rw [Option.isSome_map]
      exact h
    · exact h

theorem foldl_cover_isSome (h : known.isSome) : (ws.foldl (cover p) known).isSome := by
  induction ws generalizing known with
  | nil => exact h
  | cons w ws ih => exact ih (cover_isSome h)

theorem overlay_append (ws vs : List (List κ × PathTree κ ν)) (p : List κ) :
    overlay (ws ++ vs) p = vs.foldl (cover p) (overlay ws p) := List.foldl_append

/-- Nothing is fixed at a path exactly when no write is at the path or above it. -/
theorem overlay_eq_none_iff : overlay ws p = none ↔ ∀ w ∈ ws, ¬ w.1 <+: p := by
  constructor
  · intro h w hw hp
    obtain ⟨as,bs,rfl⟩ := List.append_of_mem hw
    rw [overlay_append,List.foldl_cons,cover_above hp] at h
    have hs : ((bs.foldl (cover p) (some (w.2.getChild (p.drop w.1.length))))).isSome :=
      foldl_cover_isSome rfl
    rw [h] at hs
    cases hs
  · intro h
    induction ws with
    | nil => rfl
    | cons w ws ih =>
      rw [overlay,List.foldl_cons,cover_none (h w List.mem_cons_self)]
      exact ih (fun v hv => h v (List.mem_cons_of_mem _ hv))

/-- A later write at a path or above it hides the earlier ones below. -/
theorem overlay_append_of_covered (h : ∃ w ∈ vs, ∀ v ∈ ws, w.1 <+: v.1) :
    overlay (ws ++ vs) = overlay vs := by
  obtain ⟨w,hw,hc⟩ := h
  funext p
  rw [overlay_append]
  by_cases hp : w.1 <+: p
  · obtain ⟨as,bs,rfl⟩ := List.append_of_mem hw
    rw [overlay_append,List.foldl_append,List.foldl_cons,List.foldl_cons,cover_above hp,
      cover_above hp]
  · have hn : overlay ws p = none :=
      overlay_eq_none_iff.mpr (fun v hv hvp => hp ((hc v hv).trans hvp))
    rw [hn]
    rfl

theorem foldl_cover_of_apart (h : ∀ w ∈ ws, Apart w.1 p) : ws.foldl (cover p) known = known := by
  induction ws generalizing known with
  | nil => rfl
  | cons w ws ih =>
    rw [List.foldl_cons,cover_of_apart (h w List.mem_cons_self)]
    exact ih (fun v hv => h v (List.mem_cons_of_mem _ hv))

theorem overlay_last (hp : overlay ws p = none) (h : ∃ w ∈ ws, p <+: w.1) :
    ∃ w ∈ ws, p <+: w.1 ∧ overlay ws w.1 = some w.2 := by
  induction ws using List.reverseRecOn with
  | nil =>
    obtain ⟨w,hw,-⟩ := h
    cases hw
  | append_singleton ws v ih =>
    simp only [overlay_append,List.foldl_cons,List.foldl_nil]
    by_cases hv : p <+: v.1
    · refine ⟨v,List.mem_append_right _ List.mem_cons_self,hv,?_⟩
      rw [cover_above (List.prefix_refl _),List.drop_length,PathTree.getChild_nil]
    · have hnone := overlay_eq_none_iff.mp hp
      have hrest : ∃ w ∈ ws, p <+: w.1 := by
        obtain ⟨w,hw,hpw⟩ := h
        rcases List.mem_append.mp hw with hw | hw
        · exact ⟨w,hw,hpw⟩
        · exact absurd (List.mem_singleton.mp hw ▸ hpw) hv
      obtain ⟨w,hw,hpw,ho⟩ := ih (overlay_eq_none_iff.mpr
        (fun w hw => hnone w (List.mem_append_left _ hw))) hrest
      have ha : Apart p v.1 := ⟨hv,hnone v (List.mem_append_right _ List.mem_cons_self)⟩
      refine ⟨w,List.mem_append_left _ hw,hpw,?_⟩
      rw [cover_of_apart (ha.below hpw).symm,ho]

theorem cover_append (r : List κ) :
    cover (r ++ p) known (r ++ q,u) = cover p known (q,u) := by
  simp only [cover,List.prefix_append_right_inj,List.length_append,List.drop_length_add_append]

theorem overlay_map_append (r : List κ) (ws : List (List κ × PathTree κ ν)) :
    overlay (ws.map (fun w => (r ++ w.1,w.2))) (r ++ p) = overlay ws p := by
  rw [overlay,overlay,List.foldl_map]
  exact congrArg (fun f => ws.foldl f none) (funext fun _ => funext fun _ => cover_append r)

theorem getChild_updateChild_above (h : q <+: p) :
    (t.updateChild q u).getChild p = u.getChild (p.drop q.length) := by
  obtain ⟨r,rfl⟩ := h
  rw [PathTree.getChild_append,PathTree.getChild_updateChild_self,List.drop_left]

theorem getChild_updateChild_of_above (h : p <+: q) :
    (t.updateChild q u).getChild p = (t.getChild p).updateChild (q.drop p.length) u := by
  obtain ⟨r,rfl⟩ := h
  rw [PathTree.getChild_updateChild_append,List.drop_left]

theorem getChild_updateChild_of_apart (h : Apart q p) :
    (t.updateChild q u).getChild p = t.getChild p := by
  induction q generalizing t p with
  | nil => exact absurd List.nil_prefix h.1
  | cons k q ih =>
    cases p with
    | nil => exact absurd List.nil_prefix h.2
    | cons j p =>
      rw [PathTree.updateChild_cons,PathTree.getChild_cons,PathTree.getChild_cons]
      by_cases hj : j = k
      · subst hj
        rw [PathTree.getImmediateChild_updateImmediateChild_self]
        refine ih ⟨fun hp => h.1 ?_,fun hp => h.2 ?_⟩
        · exact List.cons_prefix_cons.mpr ⟨rfl,hp⟩
        · exact List.cons_prefix_cons.mpr ⟨rfl,hp⟩
      · rw [PathTree.getImmediateChild_updateImmediateChild_ne _ _ hj]

theorem cover_getChild (h : ∀ n ∈ known, t.getChild p = n) :
    ∀ n ∈ cover p known w, (t.updateChild w.1 w.2).getChild p = n := by
  intro n hn
  by_cases hp : w.1 <+: p
  · rw [cover_above hp] at hn
    rw [getChild_updateChild_above hp]
    exact Option.some.inj hn
  · by_cases hq : p <+: w.1
    · rw [cover_inside hp hq] at hn
      obtain ⟨m,hm,rfl⟩ := Option.map_eq_some_iff.mp hn
      rw [getChild_updateChild_of_above hq,h m hm]
    · rw [cover_of_apart ⟨hp,hq⟩] at hn
      rw [getChild_updateChild_of_apart ⟨hp,hq⟩]
      exact h n hn

theorem cover_some (t : PathTree κ ν) (w : List κ × PathTree κ ν) :
    cover p (some (t.getChild p)) w = some ((t.updateChild w.1 w.2).getChild p) := by
  have hs : (cover p (some (t.getChild p)) w).isSome := cover_isSome rfl
  obtain ⟨n,hn⟩ := Option.isSome_iff_exists.mp hs
  rw [hn,cover_getChild (fun m hm => Option.some.inj hm) n hn]

theorem foldl_cover_getChild (h : ∀ n ∈ known, t.getChild p = n) :
    ∀ n ∈ ws.foldl (cover p) known, (replay ws t).getChild p = n := by
  induction ws generalizing known t with
  | nil => exact h
  | cons w ws ih => exact ih (cover_getChild h)

/-- What the overlay fixes is what any tree has after the writes. -/
theorem getChild_replay {n : PathTree κ ν} (h : overlay ws p = some n) :
    (replay ws t).getChild p = n := by
  have hnone : ∀ m ∈ (none : Option (PathTree κ ν)), t.getChild p = m := by simp
  exact foldl_cover_getChild hnone n h

theorem getChild_replay_of_apart (h : ∀ w ∈ ws, Apart w.1 p) :
    (replay ws t).getChild p = t.getChild p := by
  induction ws generalizing t with
  | nil => rfl
  | cons w ws ih =>
    rw [← getChild_updateChild_of_apart (t := t) (u := w.2) (h w List.mem_cons_self)]
    exact ih (fun v hv => h v (List.mem_cons_of_mem _ hv))

omit [DecidableEq κ] [KeyOrder κ] in
theorem leaf?_eq_none_iff : leaf? t = none ↔ ∀ v, t ≠ .leaf v := by
  cases t <;> simp [leaf?]

theorem leaf?_updateChild {k : κ} (h : leaf? t = none) :
    leaf? (t.updateChild (k :: q) u) = none := by
  cases t with
  | leaf v => cases h
  | branch cs =>
    rw [PathTree.updateChild_cons,PathTree.updateImmediateChild]
    split <;> rfl

theorem leaf?_replay (hn : overlay ws p = none) (h : leaf? (t.getChild p) = none) :
    leaf? ((replay ws t).getChild p) = none := by
  rw [overlay_eq_none_iff] at hn
  induction ws generalizing t with
  | nil => exact h
  | cons w ws ih =>
    have hw := hn w List.mem_cons_self
    refine ih (fun v hv => hn v (List.mem_cons_of_mem _ hv)) (t := t.updateChild w.1 w.2) ?_
    by_cases hp : p <+: w.1
    · rw [getChild_updateChild_of_above hp]
      cases hd : w.1.drop p.length with
      | nil =>
        obtain ⟨r,hr⟩ := hp
        rw [← hr,List.drop_left] at hd
        rw [hd,List.append_nil] at hr
        exact absurd (hr ▸ List.prefix_refl _) hw
      | cons k r => exact leaf?_updateChild h
    · rw [getChild_updateChild_of_apart ⟨hw,hp⟩]
      exact h

theorem getChild_replay_of_free (h : ∀ r, overlay ws (p ++ r) = none) :
    (replay ws t).getChild p = t.getChild p := by
  refine getChild_replay_of_apart (fun w hw => ⟨fun hp => ?_,fun hp => ?_⟩)
  · have hn := h []
    rw [List.append_nil] at hn
    exact overlay_eq_none_iff.mp hn w hw hp
  · obtain ⟨r,hr⟩ := hp
    exact overlay_eq_none_iff.mp (h r) w hw (hr ▸ List.prefix_refl _)

omit [KeyOrder κ] in
theorem leaf?_getChild_of_below {r : List κ} (hr : r ≠ [])
    (h : (t.getChild (p ++ r)).isEmpty = false) : leaf? (t.getChild p) = none := by
  rw [leaf?_eq_none_iff]
  intro v hv
  obtain ⟨k,r,rfl⟩ := List.exists_cons_of_ne_nil hr
  rw [PathTree.getChild_append,hv,PathTree.getChild_cons,PathTree.getImmediateChild_leaf,
    PathTree.getChild_empty,PathTree.isEmpty_empty] at h
  cases h

/-- A value of the tree above what the writes fix does not survive them: not all of what they
fix below it is empty. -/
def Compatible (fixed : List κ → Option (PathTree κ ν)) (t : PathTree κ ν) : Prop :=
  ∀ p, fixed p = none → leaf? (t.getChild p) ≠ none → (∃ r, fixed (p ++ r) ≠ none) →
    ∃ r n, fixed (p ++ r) = some n ∧ n.isEmpty = false

/-- Writes to a subtree that fix what others fix below its path leave the same values there. -/
theorem leaf?_replay_getChild (h : Compatible (overlay ws) t)
    (ho : ∀ q, overlay vs q = overlay ws (p ++ q)) (q : List κ) :
    leaf? ((replay vs (t.getChild p)).getChild q) = leaf? ((replay ws t).getChild (p ++ q)) := by
  cases hp : overlay ws (p ++ q) with
  | some n => rw [getChild_replay hp,getChild_replay ((ho q).trans hp)]
  | none =>
    have hq : overlay vs q = none := (ho q).trans hp
    have hoa : ∀ r, overlay vs (q ++ r) = overlay ws (p ++ q ++ r) := fun r => by
      rw [ho,List.append_assoc]
    by_cases hr : ∃ r, overlay ws (p ++ q ++ r) ≠ none
    · by_cases hl : leaf? (t.getChild (p ++ q)) = none
      · rw [leaf?_replay hp hl,leaf?_replay hq (by rwa [← PathTree.getChild_append])]
      · obtain ⟨r,n,hn,he⟩ := h (p ++ q) hp hl hr
        have hne : r ≠ [] := by
          rintro rfl
          rw [List.append_nil,hp] at hn
          cases hn
        have hv : ((replay vs (t.getChild p)).getChild (q ++ r)).isEmpty = false := by
          rwa [getChild_replay ((hoa r).trans hn)]
        have hw : ((replay ws t).getChild (p ++ q ++ r)).isEmpty = false := by
          rwa [getChild_replay hn]
        rw [leaf?_getChild_of_below hne hv,leaf?_getChild_of_below hne hw]
    · have hfree : ∀ r, overlay ws (p ++ q ++ r) = none :=
        fun r => not_not.mp (fun hn => hr ⟨r,hn⟩)
      rw [getChild_replay_of_free hfree,
        getChild_replay_of_free (fun r => (hoa r).trans (hfree r)),← PathTree.getChild_append]

end

end Overlay
