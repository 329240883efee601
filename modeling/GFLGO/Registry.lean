import Mathlib.Data.List.Induction
import Mathlib.Data.List.Nodup
import Mathlib.Logic.Function.Basic

/-!
A map that grows by insertions and shrinks by erasures, against the history
that made it. An element is alive when it was inserted and its key has not been
erased since.
-/

set_option autoImplicit false

namespace Registry

inductive Change (κ α : Type) where
  | insert (a : α)
  | erase (k : κ)

section
variable {κ α : Type}

def inserted : List (Change κ α) → List α
  | [] => []
  | .insert a :: cs => a :: inserted cs
  | .erase _ :: cs => inserted cs

theorem inserted_append (cs ds : List (Change κ α)) :
    inserted (cs ++ ds) = inserted cs ++ inserted ds := by
  induction cs with
  | nil => rfl
  | cons c cs ih =>
    cases c with
    | insert a => simp [inserted,ih]
    | erase k => simp [inserted,ih]

variable (key : α → κ)

/-- Inserted, and its key not erased since. -/
def Alive (cs : List (Change κ α)) (a : α) : Prop :=
  ∃ before since, cs = before ++ .insert a :: since ∧ .erase (key a) ∉ since

theorem alive_nil (a : α) : ¬ Alive key [] a := by
  rintro ⟨before,since,h,_⟩
  simp at h

theorem alive_concat {cs : List (Change κ α)} {c : Change κ α} {a : α} :
    Alive key (cs ++ [c]) a ↔ c = .insert a ∨ (Alive key cs a ∧ c ≠ .erase (key a)) := by
  constructor
  · rintro ⟨before,since,h,hn⟩
    rcases List.eq_nil_or_concat since with rfl | ⟨rest,d,rfl⟩
    · exact Or.inl (List.singleton_injective (List.append_inj' h rfl).2)
    · rw [List.concat_eq_append,← List.cons_append,← List.append_assoc] at h
      obtain ⟨rfl,hd⟩ := List.append_inj' h rfl
      obtain rfl : c = d := by simpa using hd
      simp only [List.concat_eq_append,List.mem_append,List.mem_singleton,not_or] at hn
      exact Or.inr ⟨⟨before,rest,rfl,hn.1⟩,Ne.symm hn.2⟩
  · rintro (rfl | ⟨⟨before,since,rfl,hn⟩,hc⟩)
    · exact ⟨cs,[],rfl,by simp⟩
    · refine ⟨before,since ++ [c],by simp,?_⟩
      simpa [hn] using Ne.symm hc

theorem Alive.mem_inserted {cs : List (Change κ α)} {a : α} (h : Alive key cs a) :
    a ∈ inserted cs := by
  obtain ⟨before,since,rfl,_⟩ := h
  simp [inserted_append,inserted]

variable [DecidableEq κ]

def Change.apply (m : κ → Option α) : Change κ α → κ → Option α
  | .insert a => Function.update m (key a) (some a)
  | .erase k => Function.update m k none

def after (cs : List (Change κ α)) : κ → Option α :=
  cs.foldl (Change.apply key) (fun _ => none)

@[simp] theorem after_nil (k : κ) : after key ([] : List (Change κ α)) k = none := rfl

theorem after_concat (cs : List (Change κ α)) (c : Change κ α) :
    after key (cs ++ [c]) = c.apply key (after key cs) := by
  simp [after]

theorem after_insert (cs : List (Change κ α)) (a : α) :
    after key (cs ++ [.insert a]) = Function.update (after key cs) (key a) (some a) :=
  after_concat key cs (.insert a)

theorem after_erase (cs : List (Change κ α)) (k : κ) :
    after key (cs ++ [.erase k]) = Function.update (after key cs) k none :=
  after_concat key cs (.erase k)

theorem mem_inserted_of_after {cs : List (Change κ α)} {k : κ} {a : α}
    (h : after key cs k = some a) : a ∈ inserted cs := by
  induction cs using List.reverseRecOn with
  | nil => contradiction
  | append_singleton cs c ih =>
    rw [inserted_append,List.mem_append]
    cases c with
    | erase j =>
      rw [after_erase,Function.update_apply] at h
      split at h
      · contradiction
      · exact Or.inl (ih h)
    | insert b =>
      rw [after_insert,Function.update_apply] at h
      split at h
      · cases h
        exact Or.inr (by simp [inserted])
      · exact Or.inl (ih h)

theorem exists_after_of_inserts {cs ds : List (Change κ α)} (hd : ∀ d ∈ ds, ∃ a, d = .insert a)
    {k : κ} (h : ∃ a, after key cs k = some a) : ∃ a, after key (cs ++ ds) k = some a := by
  induction ds using List.reverseRecOn with
  | nil => simpa using h
  | append_singleton ds d ih =>
    obtain ⟨a,ha⟩ := ih (fun d hd' => hd d (by simp [hd']))
    obtain ⟨b,rfl⟩ := hd d (by simp)
    rw [← List.append_assoc,after_insert,Function.update_apply]
    split
    · exact ⟨b,rfl⟩
    · exact ⟨a,ha⟩

theorem after_eq_some_iff {cs : List (Change κ α)} (h : ((inserted cs).map key).Nodup) {k : κ}
    {a : α} : after key cs k = some a ↔ key a = k ∧ Alive key cs a := by
  induction cs using List.reverseRecOn with
  | nil => simp [alive_nil]
  | append_singleton cs c ih =>
    cases c with
    | erase j =>
      rw [inserted_append,inserted,inserted,List.append_nil] at h
      rw [after_erase,alive_concat,Function.update_apply]
      split
      · next hk => simp +contextual [hk]
      · next hk =>
        rw [ih h]
        have hne : key a = k → j ≠ key a := fun he hj => hk (he ▸ hj.symm)
        simp only [ne_eq,Change.erase.injEq,reduceCtorEq,false_or]
        exact ⟨fun ⟨he,ha⟩ => ⟨he,ha,hne he⟩,fun ⟨he,ha,_⟩ => ⟨he,ha⟩⟩
    | insert b =>
      simp only [inserted_append,inserted,List.map_append,List.map_cons,List.map_nil] at h
      rw [← List.concat_eq_append,List.nodup_concat] at h
      obtain ⟨hnew,hn⟩ := h
      rw [after_insert,alive_concat,Function.update_apply]
      split
      · next hk =>
        subst hk
        simp only [Option.some.injEq,Change.insert.injEq]
        constructor
        · rintro rfl
          exact ⟨rfl,Or.inl rfl⟩
        · rintro ⟨he,rfl | ⟨ha,_⟩⟩
          · rfl
          · exact absurd (List.mem_map_of_mem ha.mem_inserted) (he ▸ hnew)
      · next hk =>
        rw [ih hn]
        simp only [Change.insert.injEq,ne_eq,reduceCtorEq,not_false_iff,and_true]
        constructor
        · rintro ⟨he,ha⟩
          exact ⟨he,Or.inr ha⟩
        · rintro ⟨rfl,rfl | ha⟩
          · exact absurd rfl hk
          · exact ⟨rfl,ha⟩

end

end Registry
