import Mathlib.Logic.Function.Basic

/-!
Accounts under unique names, numbered in the order of their signups: what a
collection of users is for, apart from how it is stored.
-/

set_option autoImplicit false

structure Account where
  number : Nat
  password : String

/-- `count` is how many signups have succeeded. -/
structure AccountMap where
  find : String → Option Account
  count : Nat
  number_lt : ∀ name a, find name = some a → a.number < count
  number_inj : ∀ name name' a a', find name = some a → find name' = some a' →
    a.number = a'.number → name = name'
  numbered : ∀ i < count, ∃ name a, find name = some a ∧ a.number = i

namespace AccountMap

inductive Request where
  | signup (name password : String)
  | login (name password : String)
  | changePassword (name oldPassword newPassword : String)

inductive Response where
  | signedUp (name : String) (number : Nat)
  | taken
  | session (name : String) (number : Nat)
  | rejected
  | changed
  | refused

def empty : AccountMap where
  find := fun _ => none
  count := 0
  number_lt := by simp
  number_inj := by simp
  numbered := by simp

def insert (m : AccountMap) (name password : String) (h : m.find name = none) : AccountMap where
  find := Function.update m.find name (some ⟨m.count,password⟩)
  count := m.count+1
  number_lt := by
    intro u a ha
    by_cases hu : u = name
    · subst hu
      simp only [Function.update_self,Option.some.injEq] at ha
      subst ha
      exact Nat.lt_succ_self _
    · rw [Function.update_of_ne hu] at ha
      exact Nat.lt_succ_of_lt (m.number_lt u a ha)
  number_inj := by
    intro u v a b ha hb hn
    by_cases hu : u = name
    · by_cases hv : v = name
      · rw [hu,hv]
      · subst hu
        simp only [Function.update_self,Option.some.injEq] at ha
        subst ha
        rw [Function.update_of_ne hv] at hb
        have := m.number_lt v b hb
        simp only at hn
        omega
    · rw [Function.update_of_ne hu] at ha
      by_cases hv : v = name
      · subst hv
        simp only [Function.update_self,Option.some.injEq] at hb
        subst hb
        have := m.number_lt u a ha
        simp only at hn
        omega
      · rw [Function.update_of_ne hv] at hb
        exact m.number_inj u v a b ha hb hn
  numbered := by
    intro i hi
    by_cases hin : i = m.count
    · exact ⟨name,⟨m.count,password⟩,by simp,hin.symm⟩
    · obtain ⟨u,a,ha,hn⟩ := m.numbered i (by omega)
      have hu : u ≠ name := by
        rintro rfl
        rw [h] at ha
        contradiction
      exact ⟨u,a,by rw [Function.update_of_ne hu,ha],hn⟩

def setPassword (m : AccountMap) (name password : String) : AccountMap where
  find := fun u => (m.find u).map (fun a => if u = name then { a with password } else a)
  count := m.count
  number_lt := by
    intro u a ha
    obtain ⟨b,hb,rfl⟩ := Option.map_eq_some_iff.mp ha
    have := m.number_lt u b hb
    split <;> exact this
  number_inj := by
    intro u v a b ha hb hn
    obtain ⟨a',ha',rfl⟩ := Option.map_eq_some_iff.mp ha
    obtain ⟨b',hb',rfl⟩ := Option.map_eq_some_iff.mp hb
    refine m.number_inj u v a' b' ha' hb' ?_
    split at hn <;> split at hn <;> exact hn
  numbered := by
    intro i hi
    obtain ⟨u,a,ha,hn⟩ := m.numbered i hi
    refine ⟨u,_,by rw [ha]; rfl,?_⟩
    split <;> exact hn

/-- The answer to a request, and the accounts after it. -/
def serve (m : AccountMap) : Request → Response × AccountMap
  | .signup name password =>
    match h : m.find name with
    | some _ => (.taken,m)
    | none => (.signedUp name m.count,m.insert name password h)
  | .login name password =>
    match m.find name with
    | some a => if a.password = password then (.session name a.number,m) else (.rejected,m)
    | none => (.rejected,m)
  | .changePassword name oldPassword newPassword =>
    match m.find name with
    | some a =>
      if a.password = oldPassword then (.changed,m.setPassword name newPassword) else (.refused,m)
    | none => (.refused,m)

def after (m : AccountMap) : List Request → AccountMap
  | [] => m
  | q :: qs => after (m.serve q).2 qs

def responses (m : AccountMap) : List Request → List Response
  | [] => []
  | q :: qs => (m.serve q).1 :: responses (m.serve q).2 qs

theorem after_concat (m : AccountMap) (qs : List Request) (q : Request) :
    m.after (qs ++ [q]) = ((m.after qs).serve q).2 := by
  induction qs generalizing m with
  | nil => rfl
  | cons q' qs ih => exact ih _

theorem responses_concat (m : AccountMap) (qs : List Request) (q : Request) :
    m.responses (qs ++ [q]) = m.responses qs ++ [((m.after qs).serve q).1] := by
  induction qs generalizing m with
  | nil => rfl
  | cons q' qs ih => simp [responses,after,ih]

section
variable {m : AccountMap} {name password : String} {a : Account}

theorem serve_signup_some (h : m.find name = some a) :
    m.serve (.signup name password) = (.taken,m) := by
  simp only [serve]
  split
  · rfl
  · next hn => simp [h] at hn

theorem serve_signup_none (h : m.find name = none) :
    m.serve (.signup name password) = (.signedUp name m.count,m.insert name password h) := by
  simp only [serve]
  split
  · next hs => simp [h] at hs
  · rfl

theorem serve_login (h : m.find name = some a) (hp : a.password = password) :
    m.serve (.login name password) = (.session name a.number,m) := by
  simp [serve,h,hp]

theorem serve_login_rejected (h : ∀ a, m.find name = some a → a.password ≠ password) :
    m.serve (.login name password) = (.rejected,m) := by
  cases hf : m.find name with
  | none => simp [serve,hf]
  | some a => simp [serve,hf,h a hf]

theorem serve_changePassword {new : String} (h : m.find name = some a)
    (hp : a.password = password) :
    m.serve (.changePassword name password new) = (.changed,m.setPassword name new) := by
  simp [serve,h,hp]

theorem serve_changePassword_refused {new : String} (h : m.find name = some a)
    (hp : a.password ≠ password) : m.serve (.changePassword name password new) = (.refused,m) := by
  simp [serve,h,hp]

theorem serve_eq_refused {q : Request} (h : (m.serve q).1 = .refused) :
    ∃ name old new, q = .changePassword name old new ∧
      ∀ a, m.find name = some a → a.password ≠ old := by
  cases q with
  | signup name password =>
    cases hf : m.find name with
    | some a => simp [serve_signup_some hf] at h
    | none => simp [serve_signup_none hf] at h
  | login name password =>
    simp only [serve] at h
    split at h
    · split at h <;> contradiction
    · contradiction
  | changePassword name old new =>
    refine ⟨name,old,new,rfl,fun a ha hp => ?_⟩
    rw [serve_changePassword ha hp] at h
    contradiction

end

end AccountMap
