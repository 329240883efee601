import Mathlib.Data.List.Perm.Basic
import Mathlib.Logic.Function.Basic
import GFLGO.Runs

/-!
Clients of a shared store. A client issues single reads and writes from its
callbacks. The store takes the snapshot of a read at any later moment and hands
it to the callback at any moment after that; the writes of one client are
applied one by one in the order in which they were issued. A callback that
traps stops its client: its pending callbacks never run, the writes it issued
before are already under way.
-/

set_option autoImplicit false

namespace Async

/-- What a callback leaves behind. -/
structure Reaction (L Q W N : Type) where
  locals : L
  reads : List Q := []
  writes : List W := []
  notes : List N := []

structure Program (L E Q S D W N T : Type) where
  onEvent : E → L → Except T (Reaction L Q W N)
  onRead : Q → S → D → L → Except T (Reaction L Q W N)

structure Backend (σ Q S W : Type) where
  view : Q → σ → S
  apply : W → σ → σ

/-- A read in flight, with its snapshot once the store has taken it. -/
structure Pending (Q S : Type) where
  read : Q
  snapshot : Option S := none

structure Client (L Q S W T : Type) where
  locals : L
  reads : List (Pending Q S) := []
  writes : List W := []
  trap : Option T := none

structure World (σ L Q S W N T : Type) where
  store : σ
  clients : Nat → Client L Q S W T
  notes : List (Nat × N) := []

inductive Label (E D : Type) where
  | event (c : Nat) (e : E)
  | snapshot (c i : Nat)
  | deliver (c i : Nat) (d : D)
  | apply (c : Nat)

def Label.client {E D : Type} : Label E D → Nat
  | .event c _ | .snapshot c _ | .deliver c _ _ | .apply c => c

/-- A label of a chain that is already under way. -/
def Label.internal {E D : Type} : Label E D → Bool
  | .event _ _ => false
  | _ => true

/-- One client by itself: any snapshot may be handed to a pending callback. -/
structure Process (L Q T : Type) where
  locals : L
  reads : List Q := []
  trap : Option T := none

inductive Input (E S D : Type) where
  | event (e : E)
  | deliver (i : Nat) (s : S) (d : D)

section
variable {σ L E Q S D W N T : Type}

def Process.absorb (pr : Process L Q T) : Except T (Reaction L Q W N) → Process L Q T
  | .error t => { pr with reads := [], trap := some t }
  | .ok r => { pr with locals := r.locals, reads := pr.reads ++ r.reads }

def Process.step (P : Program L E Q S D W N T) (inp : Input E S D) (pr : Process L Q T) :
    Option (Process L Q T) :=
  match inp with
  | .event e => if pr.trap.isSome then none else some (pr.absorb (P.onEvent e pr.locals))
  | .deliver i s d =>
    match pr.reads[i]? with
    | some q =>
      some ({ pr with reads := pr.reads.eraseIdx i }.absorb (P.onRead q s d pr.locals))
    | none => none

def Client.absorb (cl : Client L Q S W T) : Except T (Reaction L Q W N) → Client L Q S W T
  | .error t => { cl with reads := [], trap := some t }
  | .ok r =>
    { cl with
      locals := r.locals
      reads := cl.reads ++ r.reads.map (fun q => ⟨q,none⟩)
      writes := cl.writes ++ r.writes }

def notesOf : Except T (Reaction L Q W N) → List N
  | .error _ => []
  | .ok r => r.notes

def writesOf : Except T (Reaction L Q W N) → List W
  | .error _ => []
  | .ok r => r.writes

def World.setClient (w : World σ L Q S W N T) (c : Nat) (cl : Client L Q S W T) :
    World σ L Q S W N T :=
  { w with clients := Function.update w.clients c cl }

def World.react (w : World σ L Q S W N T) (c : Nat) (cl : Client L Q S W T)
    (r : Except T (Reaction L Q W N)) : World σ L Q S W N T :=
  { store := w.store
    clients := Function.update w.clients c (cl.absorb r)
    notes := w.notes ++ (notesOf r).map (fun n => (c,n)) }

def step (P : Program L E Q S D W N T) (B : Backend σ Q S W) :
    Label E D → World σ L Q S W N T → Option (World σ L Q S W N T)
  | .event c e, w =>
    let cl := w.clients c
    if cl.trap.isSome then none else some (w.react c cl (P.onEvent e cl.locals))
  | .snapshot c i, w =>
    let cl := w.clients c
    match cl.reads[i]? with
    | some ⟨q,none⟩ =>
      some (w.setClient c { cl with reads := cl.reads.set i ⟨q,some (B.view q w.store)⟩ })
    | _ => none
  | .deliver c i d, w =>
    let cl := w.clients c
    match cl.reads[i]? with
    | some ⟨q,some s⟩ =>
      some (w.react c { cl with reads := cl.reads.eraseIdx i } (P.onRead q s d cl.locals))
    | _ => none
  | .apply c, w =>
    let cl := w.clients c
    match cl.writes with
    | [] => none
    | x :: xs => some { w.setClient c { cl with writes := xs } with store := B.apply x w.store }

def Label.isApplyOf {E D : Type} (c : Nat) : Label E D → Bool
  | .apply c' => c' = c
  | _ => false

/-- Where a pending read of the client stands after the label, unless it has been answered. -/
def Label.place {E D : Type} (c : Nat) (l : Label E D) (i : Nat) : Option Nat :=
  match l with
  | .deliver c' j _ =>
    if c' ≠ c then some i else if j = i then none else if j < i then some (i-1) else some i
  | _ => some i

def placeAfter {E D : Type} (c : Nat) : List (Label E D) → Nat → Option Nat
  | [], i => some i
  | l :: ls, i => (l.place c i).bind (placeAfter c ls)

/-- Nothing of the client is under way. -/
def Client.Quiet (cl : Client L Q S W T) : Prop := cl.reads = [] ∧ cl.writes = []

def World.Quiet (w : World σ L Q S W N T) : Prop := ∀ c, (w.clients c).Quiet

/-- Operations one after another: a new one begins only when nothing is under way. -/
def OneAtATime : Label E D → World σ L Q S W N T → Prop
  | .event _ _, w => w.Quiet
  | _, _ => True

section
variable {P : Program L E Q S D W N T} {B : Backend σ Q S W} {w w' : World σ L Q S W N T}

theorem step_event {c : Nat} {e : E} (h : step P B (.event c e) w = some w') :
    (w.clients c).trap = none ∧
      w' = w.react c (w.clients c) (P.onEvent e (w.clients c).locals) := by
  simp only [step] at h
  split at h
  · contradiction
  · next ht =>
    simp only [Option.some.injEq] at h
    exact ⟨by simpa using ht, h.symm⟩

theorem step_snapshot {c i : Nat} (h : step P B (.snapshot c i) w = some w') :
    ∃ q, (w.clients c).reads[i]? = some ⟨q,none⟩ ∧
      w' = w.setClient c { w.clients c with
        reads := (w.clients c).reads.set i ⟨q,some (B.view q w.store)⟩ } := by
  simp only [step] at h
  split at h
  · next q hq =>
    simp only [Option.some.injEq] at h
    exact ⟨q,hq,h.symm⟩
  · contradiction

theorem step_deliver {c i : Nat} {d : D} (h : step P B (.deliver c i d) w = some w') :
    ∃ q s, (w.clients c).reads[i]? = some ⟨q,some s⟩ ∧
      w' = w.react c { w.clients c with reads := (w.clients c).reads.eraseIdx i }
        (P.onRead q s d (w.clients c).locals) := by
  simp only [step] at h
  split at h
  · next q s hq =>
    simp only [Option.some.injEq] at h
    exact ⟨q,s,hq,h.symm⟩
  · contradiction

theorem step_apply {c : Nat} (h : step P B (.apply c) w = some w') :
    ∃ x xs, (w.clients c).writes = x :: xs ∧
      w' = { w.setClient c { w.clients c with writes := xs } with store := B.apply x w.store } := by
  simp only [step] at h
  split at h
  · contradiction
  · next x xs hx =>
    simp only [Option.some.injEq] at h
    exact ⟨x,xs,hx,h.symm⟩

theorem event_step {c : Nat} (ht : (w.clients c).trap = none) (e : E) :
    step P B (.event c e) w =
      some (w.react c (w.clients c) (P.onEvent e (w.clients c).locals)) := by
  simp [step,ht]

theorem snapshot_step {c i : Nat} {q : Q} (hq : (w.clients c).reads[i]? = some ⟨q,none⟩) :
    step P B (.snapshot c i) w = some (w.setClient c { w.clients c with
      reads := (w.clients c).reads.set i ⟨q,some (B.view q w.store)⟩ }) := by
  simp [step,hq]

theorem deliver_step {c i : Nat} {q : Q} {s : S} (hq : (w.clients c).reads[i]? = some ⟨q,some s⟩)
    (d : D) : step P B (.deliver c i d) w =
      some (w.react c { w.clients c with reads := (w.clients c).reads.eraseIdx i }
        (P.onRead q s d (w.clients c).locals)) := by
  simp [step,hq]

theorem apply_step {c : Nat} {x : W} {xs : List W} (hx : (w.clients c).writes = x :: xs) :
    step P B (.apply c) w = some
      { w.setClient c { w.clients c with writes := xs } with store := B.apply x w.store } := by
  simp [step,hx]

end

section
variable (w : World σ L Q S W N T) (c : Nat) (cl : Client L Q S W T)

@[simp] theorem setClient_clients_self : (w.setClient c cl).clients c = cl := by
  simp [World.setClient]

theorem setClient_clients_ne {c' : Nat} (h : c' ≠ c) :
    (w.setClient c cl).clients c' = w.clients c' := by
  simp [World.setClient,h]

@[simp] theorem setClient_store : (w.setClient c cl).store = w.store := rfl

@[simp] theorem setClient_notes : (w.setClient c cl).notes = w.notes := rfl

variable (r : Except T (Reaction L Q W N))

@[simp] theorem react_clients_self : (w.react c cl r).clients c = cl.absorb r := by
  simp [World.react]

theorem react_clients_ne {c' : Nat} (h : c' ≠ c) :
    (w.react c cl r).clients c' = w.clients c' := by
  simp [World.react,h]

@[simp] theorem react_store : (w.react c cl r).store = w.store := rfl

theorem react_ok (r : Reaction L Q W N) : w.react c cl (.ok r) =
    { w.setClient c { cl with
        locals := r.locals
        reads := cl.reads ++ r.reads.map (fun q => ⟨q,none⟩)
        writes := cl.writes ++ r.writes } with
      notes := w.notes ++ r.notes.map (fun n => (c,n)) } := rfl

theorem react_silent (d : L) (qs : List Q) :
    w.react c cl (.ok { locals := d, reads := qs } : Except T (Reaction L Q W N)) =
      w.setClient c { cl with locals := d, reads := cl.reads ++ qs.map (fun q => ⟨q,none⟩) } := by
  simp [World.react,World.setClient,Client.absorb,notesOf]

theorem react_error (t : T) : w.react c cl (.error t) =
    w.setClient c { cl with reads := [], trap := some t } := by
  simp [World.react,World.setClient,Client.absorb,notesOf]

@[simp] theorem react_notes :
    (w.react c cl r).notes = w.notes ++ (notesOf r).map (fun n => (c,n)) := rfl

end

/-- Of all clients together at most one holds one of what `f` counts. -/
structure AtMostOne {α : Type} (f : α → Nat) (g : Nat → α) : Prop where
  one : ∀ c, f (g c) ≤ 1
  only : ∀ c c', 0 < f (g c) → 0 < f (g c') → c = c'

theorem AtMostOne.update {α : Type} {f : α → Nat} {g : Nat → α} (h : AtMostOne f g) {c : Nat}
    {a : α} (hc : f a ≤ f (g c)) : AtMostOne f (Function.update g c a) := by
  have hle (c' : Nat) : f (Function.update g c a c') ≤ f (g c') := by
    by_cases he : c' = c
    · subst he
      simpa using hc
    · simp [he]
  constructor
  · intro c'
    have := h.one c'
    have := hle c'
    omega
  · intro c₁ c₂ h₁ h₂
    have := hle c₁
    have := hle c₂
    exact h.only c₁ c₂ (by omega) (by omega)

theorem AtMostOne.of_others {α : Type} {f : α → Nat} {g : Nat → α} {c : Nat} {a : α}
    (h : ∀ c', c' ≠ c → f (g c') = 0) (hc : f a ≤ 1) : AtMostOne f (Function.update g c a) := by
  have hother (c' : Nat) (he : c' ≠ c) : f (Function.update g c a c') = 0 := by
    simpa [he] using h c' he
  have heq (c' : Nat) (hpos : 0 < f (Function.update g c a c')) : c' = c := by
    by_contra he
    have := hother c' he
    omega
  constructor
  · intro c'
    by_cases he : c' = c
    · subst he
      simpa using hc
    · have := hother c' he
      omega
  · intro c₁ c₂ h₁ h₂
    rw [heq c₁ h₁,heq c₂ h₂]

theorem countP_eraseIdx {α : Type} {l : List α} {i : Nat} {a : α} (f : α → Bool)
    (h : l[i]? = some a) :
    l.countP f = (l.eraseIdx i).countP f + (f a).toNat := by
  obtain ⟨hi,rfl⟩ := List.getElem?_eq_some_iff.mp h
  rw [← (List.getElem_cons_eraseIdx_perm hi).countP_eq f,List.countP_cons]
  cases f l[i] <;> simp

theorem countP_set {α : Type} {l : List α} {i : Nat} {a b : α} (f : α → Bool)
    (h : l[i]? = some a) :
    (l.set i b).countP f + (f a).toNat = l.countP f + (f b).toNat := by
  have hb : (l.set i b)[i]? = some b := by
    obtain ⟨hi,_⟩ := List.getElem?_eq_some_iff.mp h
    simp [hi]
  have hset := countP_eraseIdx f hb
  rw [List.eraseIdx_set_eq] at hset
  have := countP_eraseIdx f h
  omega

theorem mem_eraseIdx_of_ne {α : Type} {l : List α} {i : Nat} {a x : α} (h : l[i]? = some a)
    (hx : x ∈ l) (hne : x ≠ a) : x ∈ l.eraseIdx i := by
  obtain ⟨hi,rfl⟩ := List.getElem?_eq_some_iff.mp h
  have hmem := (List.getElem_cons_eraseIdx_perm hi).mem_iff.mpr hx
  exact (List.mem_cons.mp hmem).resolve_left hne

theorem mem_set_of_ne {α : Type} {l : List α} {i : Nat} {a b x : α} (h : l[i]? = some a)
    (hx : x ∈ l) (hne : x ≠ a) : x ∈ l.set i b := by
  obtain ⟨hi,_⟩ := List.getElem?_eq_some_iff.mp h
  have hmem := mem_eraseIdx_of_ne h hx hne
  exact (List.set_perm_cons_eraseIdx hi b).mem_iff.mpr (List.mem_cons_of_mem b hmem)

theorem mem_set_self {α : Type} {l : List α} {i : Nat} {a b : α} (h : l[i]? = some a) :
    b ∈ l.set i b :=
  List.mem_set (List.getElem?_eq_some_iff.mp h).1 b

theorem step_clients_ne {P : Program L E Q S D W N T} {B : Backend σ Q S W} {l : Label E D}
    {w w' : World σ L Q S W N T} (h : step P B l w = some w') {c : Nat} (hc : c ≠ l.client) :
    w'.clients c = w.clients c := by
  cases l with
  | event c' e =>
    obtain ⟨_,rfl⟩ := step_event h
    exact react_clients_ne w c' _ _ hc
  | snapshot c' i =>
    obtain ⟨q,_,rfl⟩ := step_snapshot h
    exact setClient_clients_ne w c' _ hc
  | deliver c' i d =>
    obtain ⟨q,s,_,rfl⟩ := step_deliver h
    exact react_clients_ne w c' _ _ hc
  | apply c' =>
    obtain ⟨x,xs,_,rfl⟩ := step_apply h
    exact setClient_clients_ne w c' _ hc

theorem run_clients_ne {P : Program L E Q S D W N T} {B : Backend σ Q S W} {ls : List (Label E D)}
    {w w' : World σ L Q S W N T} (h : Runs.run (step P B) ls w = some w') {c : Nat}
    (hc : ∀ l ∈ ls, c ≠ l.client) : w'.clients c = w.clients c := by
  refine Runs.run_invariant (C := fun l _ => c ≠ l.client)
    (I := fun u => u.clients c = w.clients c) (step P B) ?_ rfl
    (Runs.along_of_forall_mem (step P B) hc w) h
  intro l u u' hu hne hs
  rw [step_clients_ne hs hne,hu]

instance (cl : Client L Q S W T) : Decidable cl.Quiet :=
  inferInstanceAs (Decidable (cl.reads = [] ∧ cl.writes = []))

theorem quiet_of_run {P : Program L E Q S D W N T} {B : Backend σ Q S W} {ls : List (Label E D)}
    {w w' : World σ L Q S W N T} (hw : w.Quiet) (h : Runs.run (step P B) ls w = some w')
    (hq : ∀ l ∈ ls, (w'.clients l.client).Quiet) : w'.Quiet := by
  intro c
  by_cases hc : ∃ l ∈ ls, l.client = c
  · obtain ⟨l,hl,rfl⟩ := hc
    exact hq l hl
  · rw [run_clients_ne h (fun l hl he => hc ⟨l,hl,he.symm⟩)]
    exact hw c

/-- In a run of some clients a condition may use that all others are as they were. -/
theorem along_of_clients {P : Program L E Q S D W N T} {B : Backend σ Q S W} {A : List Nat}
    {C D' : Label E D → World σ L Q S W N T → Prop} {ls : List (Label E D)}
    {w : World σ L Q S W N T} (hl : ∀ l ∈ ls, l.client ∈ A)
    (hcd : ∀ l u, (∀ c, c ∉ A → u.clients c = w.clients c) → D' l u → C l u)
    (h : Runs.Along (step P B) D' ls w) : Runs.Along (step P B) C ls w := by
  have hboth := (Runs.along_of_forall_mem (step P B) hl w).and (step P B) h
  refine hboth.mono_of_invariant (I := fun u => ∀ c, c ∉ A → u.clients c = w.clients c)
    (step P B) ?_ (fun l u hu hd => hcd l u hu hd.2) (fun _ _ => rfl)
  intro l u u' hu hd hs c hc
  have hother : c ≠ l.client := fun he => hc (he ▸ hd.1)
  rw [step_clients_ne hs hother,hu c hc]

theorem forall_clients_of_mem {A : List Nat} {w₀ w : World σ L Q S W N T}
    {R : Client L Q S W T → Prop} (hw : ∀ c, c ∉ A → w.clients c = w₀.clients c)
    (h₀ : ∀ c, R (w₀.clients c)) (h : ∀ c ∈ A, R (w.clients c)) (c : Nat) : R (w.clients c) := by
  by_cases hc : c ∈ A
  · exact h c hc
  · rw [hw c hc]
    exact h₀ c

theorem along_of_client {P : Program L E Q S D W N T} {B : Backend σ Q S W} {c : Nat}
    {C D' : Label E D → World σ L Q S W N T → Prop} {ls : List (Label E D)}
    {w : World σ L Q S W N T} (hl : ∀ l ∈ ls, l.client = c)
    (hcd : ∀ l u, (∀ c', c' ≠ c → u.clients c' = w.clients c') → D' l u → C l u)
    (h : Runs.Along (step P B) D' ls w) : Runs.Along (step P B) C ls w := by
  refine along_of_clients (A := [c]) (fun l hmem => by simp [hl l hmem]) (fun l u hu => ?_) h
  exact hcd l u (fun c' hne => hu c' (by simpa using hne))

def QuietClient (c : Nat) (l : Label E D) (w : World σ L Q S W N T) : Prop :=
  l.internal = false → (w.clients c).Quiet

instance (c : Nat) (l : Label E D) (w : World σ L Q S W N T) : Decidable (QuietClient c l w) :=
  inferInstanceAs (Decidable (l.internal = false → (w.clients c).Quiet))

theorem oneAtATime_of_quietClient {P : Program L E Q S D W N T} {B : Backend σ Q S W} {c : Nat}
    {ls : List (Label E D)} {w : World σ L Q S W N T} (hw : w.Quiet)
    (hl : ∀ l ∈ ls, l.client = c) (h : Runs.Along (step P B) (QuietClient c) ls w) :
    Runs.Along (step P B) OneAtATime ls w := by
  refine along_of_client hl (fun l u hu hq => ?_) h
  cases l with
  | event c₀ e =>
    intro c'
    by_cases hc : c' = c
    · subst hc
      exact hq rfl
    · rw [hu c' hc]
      exact hw c'
  | _ => trivial

theorem exists_quiet_prefix {P : Program L E Q S D W N T} {B : Backend σ Q S W}
    {ls : List (Label E D)} {w w' : World σ L Q S W N T}
    (hc : Runs.Along (step P B) OneAtATime ls w) (h : Runs.run (step P B) ls w = some w')
    (hq : w'.Quiet) : ∃ as u, as <+: ls ∧ (∀ l ∈ as, l.internal = true) ∧
      Runs.run (step P B) as w = some u ∧ u.Quiet := by
  induction ls generalizing w with
  | nil =>
    simp only [Runs.run_nil,Option.some.injEq] at h
    subst h
    exact ⟨[],w,List.nil_prefix,by simp,rfl,hq⟩
  | cons l ls ih =>
    by_cases hw : w.Quiet
    · exact ⟨[],w,List.nil_prefix,by simp,rfl,hw⟩
    · obtain ⟨v,hs,hr⟩ := (Runs.run_cons_eq_some _).mp h
      obtain ⟨as,u,hp,hl,hu,hquiet⟩ := ih (hc.2 v hs) hr
      have hinternal : l.internal = true := by
        cases l with
        | event c e => exact absurd hc.1 hw
        | _ => rfl
      exact ⟨l :: as,u,List.cons_prefix_cons.mpr ⟨rfl,hp⟩,List.forall_mem_cons.mpr ⟨hinternal,hl⟩,
        (Runs.run_cons_eq_some _).mpr ⟨v,hs,hu⟩,hquiet⟩

theorem forall_clients_update {f : Nat → Client L Q S W T} {c : Nat} {cl : Client L Q S W T}
    {R : Nat → Client L Q S W T → Prop} (hc : R c cl) (ho : ∀ c', c' ≠ c → R c' (f c')) :
    ∀ c', R c' (Function.update f c cl c') := by
  intro c'
  by_cases h : c' = c
  · subst h
    simpa using hc
  · simpa [h] using ho c' h

theorem clients_update_congr {α : Type} {f : Nat → Client L Q S W T} {c : Nat}
    {cl : Client L Q S W T} (g : Client L Q S W T → α) (h : g cl = g (f c)) (c' : Nat) :
    g (Function.update f c cl c') = g (f c') :=
  forall_clients_update (R := fun c' cl => g cl = g (f c')) h (fun _ _ => rfl) c'

theorem forall_reads_absorb {cl : Client L Q S W T} {r : Except T (Reaction L Q W N)}
    {R : Pending Q S → Prop} (h : ∀ rd ∈ cl.reads, R rd)
    (hr : ∀ r', r = .ok r' → ∀ q ∈ r'.reads, R ⟨q,none⟩) : ∀ rd ∈ (cl.absorb r).reads, R rd := by
  intro rd hrd
  cases r with
  | error t => contradiction
  | ok r' =>
    rcases List.mem_append.mp hrd with hold | hnew
    · exact h rd hold
    · obtain ⟨q,hq,rfl⟩ := List.mem_map.mp hnew
      exact hr r' rfl q hq

theorem forall_writes_absorb {cl : Client L Q S W T} {r : Except T (Reaction L Q W N)}
    {R : W → Prop} (h : ∀ x ∈ cl.writes, R x) (hr : ∀ r', r = .ok r' → ∀ x ∈ r'.writes, R x) :
    ∀ x ∈ (cl.absorb r).writes, R x := by
  intro x hx
  cases r with
  | error t => exact h x hx
  | ok r' =>
    rcases List.mem_append.mp hx with hold | hnew
    · exact h x hold
    · exact hr r' rfl x hnew

theorem mem_reads_absorb {cl : Client L Q S W T} {r : Reaction L Q W N} {p : Pending Q S} :
    p ∈ (cl.absorb (.ok r)).reads ↔ p ∈ cl.reads ∨ ∃ q ∈ r.reads, p = ⟨q,none⟩ := by
  simp [Client.absorb,eq_comm]

theorem writes_absorb {cl : Client L Q S W T} {r : Except T (Reaction L Q W N)} {x : W}
    (hx : x ∈ (cl.absorb r).writes) : x ∈ cl.writes ∨ ∃ r', r = .ok r' ∧ x ∈ r'.writes := by
  cases r with
  | error t => exact Or.inl hx
  | ok r' => exact (List.mem_append.mp hx).imp_right (fun hnew => ⟨r',rfl,hnew⟩)

theorem reads_absorb {cl : Client L Q S W T} {r : Except T (Reaction L Q W N)} {rd : Pending Q S}
    (hrd : rd ∈ (cl.absorb r).reads) :
    rd ∈ cl.reads ∨ ∃ r', r = .ok r' ∧ rd.read ∈ r'.reads := by
  cases r with
  | error t => contradiction
  | ok r' =>
    refine (List.mem_append.mp hrd).imp_right (fun hnew => ?_)
    obtain ⟨q,hq,rfl⟩ := List.mem_map.mp hnew
    exact ⟨r',rfl,hq⟩

/-- The client's callback that the step runs returns the reaction. -/
inductive Reacts (P : Program L E Q S D W N T) (w : World σ L Q S W N T) (c : Nat)
    (r : Reaction L Q W N) : Label E D → Prop
  | event {e : E} (hr : P.onEvent e (w.clients c).locals = .ok r) : Reacts P w c r (.event c e)
  | deliver {i : Nat} {d : D} {q : Q} {s : S} (hq : (w.clients c).reads[i]? = some ⟨q,some s⟩)
    (hr : P.onRead q s d (w.clients c).locals = .ok r) : Reacts P w c r (.deliver c i d)

/-- The client's callback that the step runs traps. -/
inductive Fails (P : Program L E Q S D W N T) (w : World σ L Q S W N T) (c : Nat) (t : T) :
    Label E D → Prop
  | event {e : E} (hr : P.onEvent e (w.clients c).locals = .error t) : Fails P w c t (.event c e)
  | deliver {i : Nat} {d : D} {q : Q} {s : S} (hq : (w.clients c).reads[i]? = some ⟨q,some s⟩)
    (hr : P.onRead q s d (w.clients c).locals = .error t) : Fails P w c t (.deliver c i d)

variable {P : Program L E Q S D W N T} {B : Backend σ Q S W} {l : Label E D}
  {w w' : World σ L Q S W N T}

theorem step_store (h : step P B l w = some w') : w'.store = w.store ∨
    ∃ c x xs, l = .apply c ∧ (w.clients c).writes = x :: xs ∧ w'.store = B.apply x w.store := by
  cases l with
  | event c e =>
    obtain ⟨_,rfl⟩ := step_event h
    exact Or.inl rfl
  | snapshot c i =>
    obtain ⟨q,_,rfl⟩ := step_snapshot h
    exact Or.inl rfl
  | deliver c i d =>
    obtain ⟨q,s,_,rfl⟩ := step_deliver h
    exact Or.inl rfl
  | apply c =>
    obtain ⟨x,xs,hx,rfl⟩ := step_apply h
    exact Or.inr ⟨c,x,xs,rfl,hx,rfl⟩

/-- What becomes of a client in a step. -/
inductive ClientStep (P : Program L E Q S D W N T) (B : Backend σ Q S W) (w : World σ L Q S W N T)
    (c : Nat) : Label E D → Client L Q S W T → Prop
  | other {l : Label E D} (hl : l.client ≠ c) : ClientStep P B w c l (w.clients c)
  | event {e : E} : ClientStep P B w c (.event c e)
      ((w.clients c).absorb (P.onEvent e (w.clients c).locals))
  | snapshot {i : Nat} {q : Q} (hq : (w.clients c).reads[i]? = some ⟨q,none⟩) :
      ClientStep P B w c (.snapshot c i)
        { w.clients c with reads := (w.clients c).reads.set i ⟨q,some (B.view q w.store)⟩ }
  | deliver {i : Nat} {d : D} {q : Q} {s : S} (hq : (w.clients c).reads[i]? = some ⟨q,some s⟩) :
      ClientStep P B w c (.deliver c i d)
        ({ w.clients c with reads := (w.clients c).reads.eraseIdx i }.absorb
          (P.onRead q s d (w.clients c).locals))
  | apply {x : W} {xs : List W} (hx : (w.clients c).writes = x :: xs) :
      ClientStep P B w c (.apply c) { w.clients c with writes := xs }

theorem client_step (h : step P B l w = some w') (c : Nat) :
    ClientStep P B w c l (w'.clients c) := by
  by_cases hl : l.client = c
  · subst hl
    cases l with
    | event c e =>
      obtain ⟨_,rfl⟩ := step_event h
      simpa only [Label.client,react_clients_self] using .event
    | snapshot c i =>
      obtain ⟨q,hq,rfl⟩ := step_snapshot h
      simpa only [Label.client,setClient_clients_self] using .snapshot hq
    | deliver c i d =>
      obtain ⟨q,s,hq,rfl⟩ := step_deliver h
      simpa only [Label.client,react_clients_self] using .deliver hq
    | apply c =>
      obtain ⟨x,xs,hx,rfl⟩ := step_apply h
      simpa only [Label.client,setClient_clients_self] using .apply hx
  · rw [step_clients_ne h (Ne.symm hl)]
    exact .other hl

/-- A client changes what it holds in its callbacks alone. -/
theorem locals_of_step (h : step P B l w = some w') (c : Nat) :
    (w'.clients c).locals = (w.clients c).locals ∨
      ∃ r, Reacts P w c r l ∧ (w'.clients c).locals = r.locals := by
  have hstep := client_step h c
  generalize w'.clients c = cl at hstep
  cases hstep with
  | other hl => exact Or.inl rfl
  | event =>
    cases hr : P.onEvent _ (w.clients c).locals with
    | error t => exact Or.inl rfl
    | ok r => exact Or.inr ⟨r,.event hr,rfl⟩
  | snapshot hq => exact Or.inl rfl
  | @deliver i d q s hq =>
    cases hr : P.onRead q s d (w.clients c).locals with
    | error t => exact Or.inl rfl
    | ok r => exact Or.inr ⟨r,.deliver hq hr,rfl⟩
  | apply hx => exact Or.inl rfl

theorem trap_of_step (h : step P B l w = some w') {c : Nat} {t : T}
    (ht : (w'.clients c).trap = some t) : (w.clients c).trap = some t ∨ Fails P w c t l := by
  have hstep := client_step h c
  generalize w'.clients c = cl at hstep ht
  cases hstep with
  | other hl => exact Or.inl ht
  | @event e =>
    cases hr : P.onEvent e (w.clients c).locals with
    | error t' =>
      simp only [hr,Client.absorb,Option.some.injEq] at ht
      exact Or.inr (.event (ht ▸ hr))
    | ok r =>
      rw [hr] at ht
      exact Or.inl ht
  | snapshot hq => exact Or.inl ht
  | @deliver i d q s hq =>
    cases hr : P.onRead q s d (w.clients c).locals with
    | error t' =>
      simp only [hr,Client.absorb,Option.some.injEq] at ht
      exact Or.inr (.deliver hq (ht ▸ hr))
    | ok r =>
      rw [hr] at ht
      exact Or.inl ht
  | apply hx => exact Or.inl ht

theorem notes_of_step (h : step P B l w = some w') : ∃ ns, w'.notes = w.notes ++ ns := by
  cases l with
  | event c e =>
    obtain ⟨_,rfl⟩ := step_event h
    exact ⟨_,rfl⟩
  | snapshot c i =>
    obtain ⟨q,_,rfl⟩ := step_snapshot h
    exact ⟨[],by simp⟩
  | deliver c i d =>
    obtain ⟨q,s,_,rfl⟩ := step_deliver h
    exact ⟨_,rfl⟩
  | apply c =>
    obtain ⟨x,xs,_,rfl⟩ := step_apply h
    exact ⟨[],by simp⟩

theorem mem_writes_step (h : step P B l w = some w') {c : Nat} {x : W}
    (hx : x ∈ (w'.clients c).writes) :
    x ∈ (w.clients c).writes ∨ ∃ r, Reacts P w c r l ∧ x ∈ r.writes := by
  have hstep := client_step h c
  generalize w'.clients c = cl at hstep hx
  cases hstep with
  | other hl => exact Or.inl hx
  | event =>
    rcases writes_absorb hx with hold | ⟨r,hr,hnew⟩
    · exact Or.inl hold
    · exact Or.inr ⟨r,.event hr,hnew⟩
  | snapshot hq => exact Or.inl hx
  | deliver hq =>
    rcases writes_absorb hx with hold | ⟨r,hr,hnew⟩
    · exact Or.inl hold
    · exact Or.inr ⟨r,.deliver hq hr,hnew⟩
  | @apply y ys hy => exact Or.inl (by rw [hy]; exact List.mem_cons_of_mem y hx)

theorem mem_reads_step (h : step P B l w = some w') {c : Nat} {rd : Pending Q S}
    (hrd : rd ∈ (w'.clients c).reads) : (∃ rd' ∈ (w.clients c).reads, rd'.read = rd.read) ∨
      ∃ r, Reacts P w c r l ∧ rd.read ∈ r.reads := by
  have hstep := client_step h c
  generalize w'.clients c = cl at hstep hrd
  cases hstep with
  | other hl => exact Or.inl ⟨rd,hrd,rfl⟩
  | event =>
    rcases reads_absorb hrd with hold | ⟨r,hr,hnew⟩
    · exact Or.inl ⟨rd,hold,rfl⟩
    · exact Or.inr ⟨r,.event hr,hnew⟩
  | snapshot hq =>
    rcases List.mem_or_eq_of_mem_set hrd with hold | rfl
    · exact Or.inl ⟨rd,hold,rfl⟩
    · exact Or.inl ⟨_,List.mem_of_getElem? hq,rfl⟩
  | deliver hq =>
    rcases reads_absorb hrd with hold | ⟨r,hr,hnew⟩
    · exact Or.inl ⟨rd,List.mem_of_mem_eraseIdx hold,rfl⟩
    · exact Or.inr ⟨r,.deliver hq hr,hnew⟩
  | apply hx => exact Or.inl ⟨rd,hrd,rfl⟩

theorem Reacts.client {c : Nat} {r : Reaction L Q W N} (h : Reacts P w c r l) : l.client = c := by
  cases h <;> rfl

theorem Reacts.step {c : Nat} {r : Reaction L Q W N} (hr : Reacts P w c r l)
    (h : Async.step P B l w = some w') :
    w'.store = w.store ∧ (w'.clients c).writes = (w.clients c).writes ++ r.writes := by
  cases hr with
  | event hr =>
    obtain ⟨_,rfl⟩ := step_event h
    rw [react_clients_self,hr]
    exact ⟨rfl,rfl⟩
  | deliver hq hr =>
    obtain ⟨q,s,hq',rfl⟩ := step_deliver h
    rw [hq,Option.some.injEq] at hq'
    cases hq'
    rw [react_clients_self,hr]
    exact ⟨rfl,rfl⟩

theorem Reacts.notes {c : Nat} {r : Reaction L Q W N} (hr : Reacts P w c r l)
    (h : Async.step P B l w = some w') : w'.notes = w.notes ++ r.notes.map (fun n => (c,n)) := by
  cases hr with
  | event hr =>
    obtain ⟨_,rfl⟩ := step_event h
    rw [react_notes,hr]
    rfl
  | deliver hq hr =>
    obtain ⟨q,s,hq',rfl⟩ := step_deliver h
    rw [hq,Option.some.injEq] at hq'
    cases hq'
    rw [react_notes,hr]
    rfl

theorem writes_step (h : step P B l w = some w') {c : Nat} (hl : l ≠ .apply c) :
    ∃ ws, (w'.clients c).writes = (w.clients c).writes ++ ws ∧
      (ws = [] ∨ ∃ r, Reacts P w c r l ∧ ws = r.writes) := by
  have hstep := client_step h c
  generalize w'.clients c = cl at hstep
  cases hstep with
  | other hl => exact ⟨[],by simp,Or.inl rfl⟩
  | event =>
    cases hr : P.onEvent _ (w.clients c).locals with
    | error t => exact ⟨[],by simp [Client.absorb],Or.inl rfl⟩
    | ok r => exact ⟨r.writes,rfl,Or.inr ⟨r,.event hr,rfl⟩⟩
  | snapshot hq => exact ⟨[],by simp,Or.inl rfl⟩
  | @deliver i d q s hq =>
    cases hr : P.onRead q s d (w.clients c).locals with
    | error t => exact ⟨[],by simp [Client.absorb],Or.inl rfl⟩
    | ok r => exact ⟨r.writes,rfl,Or.inr ⟨r,.deliver hq hr,rfl⟩⟩
  | apply hx => contradiction

/-- A snapshot in hand was there before, or has just been taken. -/
theorem snapshot_of_step (h : step P B l w = some w') {c : Nat} {rd : Pending Q S} {s : S}
    (hrd : rd ∈ (w'.clients c).reads) (hs : rd.snapshot = some s) : rd ∈ (w.clients c).reads ∨
      ∃ i, l = .snapshot c i ∧ (w.clients c).reads[i]? = some ⟨rd.read,none⟩ ∧
        s = B.view rd.read w.store := by
  have hstep := client_step h c
  generalize w'.clients c = cl at hstep hrd
  have habsorb : ∀ {cl' : Client L Q S W T} {r : Except T (Reaction L Q W N)},
      rd ∈ (cl'.absorb r).reads → rd ∈ cl'.reads := by
    intro cl' r hrd'
    cases r with
    | error t => contradiction
    | ok r =>
      rcases mem_reads_absorb.mp hrd' with hold | ⟨q,_,rfl⟩
      · exact hold
      · contradiction
  cases hstep with
  | other hl => exact Or.inl hrd
  | event => exact Or.inl (habsorb hrd)
  | @snapshot i q hq =>
    rcases List.mem_or_eq_of_mem_set hrd with hold | rfl
    · exact Or.inl hold
    · cases hs
      exact Or.inr ⟨i,rfl,hq,rfl⟩
  | deliver hq => exact Or.inl (List.mem_of_mem_eraseIdx (habsorb hrd))
  | apply hx => exact Or.inl hrd

/-- A client that has crashed never runs a callback again. -/
structure Client.Stopped (cl : Client L Q S W T) : Prop where
  trap : cl.trap.isSome = true
  reads : cl.reads = []

theorem absorb_error_stopped (cl : Client L Q S W T) (t : T) :
    (cl.absorb (.error t : Except T (Reaction L Q W N))).Stopped := ⟨rfl,rfl⟩

theorem Client.Stopped.step {c : Nat} (hc : (w.clients c).Stopped) (h : step P B l w = some w') :
    (w'.clients c).Stopped := by
  obtain ⟨ht,hr⟩ := hc
  have hevent : ∀ e, l ≠ .event c e := by
    rintro e rfl
    rw [(step_event h).1] at ht
    contradiction
  have hstep := client_step h c
  generalize w'.clients c = cl at hstep
  cases hstep with
  | other hl => exact ⟨ht,hr⟩
  | event => exact absurd rfl (hevent _)
  | snapshot hq => simp [hr] at hq
  | deliver hq => simp [hr] at hq
  | apply hx => exact ⟨ht,hr⟩

theorem Client.Stopped.run {c : Nat} {ls : List (Label E D)} (hc : (w.clients c).Stopped)
    (h : Runs.run (Async.step P B) ls w = some w') : (w'.clients c).Stopped :=
  Runs.run_invariant (C := fun _ _ => True) (I := fun u => (u.clients c).Stopped)
    (Async.step P B) (fun _ _ _ hu _ hs => hu.step hs) hc
    (Runs.along_of_forall_mem (Async.step P B) (fun _ _ => trivial) w) h

theorem getElem?_absorb {cl : Client L Q S W T} {r : Except T (Reaction L Q W N)} {i : Nat}
    {rd : Pending Q S} (hi : cl.reads[i]? = some rd) :
    (cl.absorb r).Stopped ∨ (cl.absorb r).reads[i]? = some rd := by
  cases r with
  | error t => exact Or.inl (absorb_error_stopped cl t)
  | ok r => exact Or.inr ((List.getElem?_append_left (List.getElem?_eq_some_iff.mp hi).1).trans hi)

theorem getElem?_eraseIdx_of_place {α : Type} {l : List α} {i j k : Nat} {a : α}
    (hi : l[i]? = some a)
    (hk : (if j = i then none else if j < i then some (i-1) else some i) = some k) :
    (l.eraseIdx j)[k]? = some a := by
  split at hk
  · contradiction
  · split at hk
    · next hji =>
      cases hk
      rw [List.getElem?_eraseIdx_of_ge (by omega),Nat.sub_add_cancel (by omega),hi]
    · cases hk
      rw [List.getElem?_eraseIdx_of_lt (by omega),hi]

theorem read_of_step {c i j : Nat} {rd : Pending Q S} (h : step P B l w = some w')
    (hi : (w.clients c).reads[i]? = some rd) (hj : l.place c i = some j) :
    (w'.clients c).Stopped ∨
      ∃ rd', (w'.clients c).reads[j]? = some rd' ∧ rd'.read = rd.read := by
  have hstep := client_step h c
  generalize w'.clients c = cl at hstep
  cases hstep with
  | other hl =>
    cases l with
    | deliver c' k d =>
      simp only [Label.client] at hl
      simp only [Label.place,ne_eq,hl,not_false_eq_true,if_true] at hj
      cases hj
      exact Or.inr ⟨rd,hi,rfl⟩
    | _ =>
      cases hj
      exact Or.inr ⟨rd,hi,rfl⟩
  | event =>
    cases hj
    exact (getElem?_absorb hi).imp_right (fun hr => ⟨rd,hr,rfl⟩)
  | @snapshot k q hq =>
    cases hj
    by_cases hk : k = i
    · subst hk
      rw [hi,Option.some.injEq] at hq
      subst hq
      exact Or.inr ⟨_,List.getElem?_set_self (List.getElem?_eq_some_iff.mp hi).1,rfl⟩
    · exact Or.inr ⟨rd,(List.getElem?_set_ne hk).trans hi,rfl⟩
  | @deliver k d q s hq =>
    simp only [Label.place,ne_eq,not_true_eq_false,if_false] at hj
    exact (getElem?_absorb (getElem?_eraseIdx_of_place hi hj)).imp_right (fun hr => ⟨rd,hr,rfl⟩)
  | apply hx =>
    cases hj
    exact Or.inr ⟨rd,hi,rfl⟩

theorem read_of_run {c i j : Nat} {rd rd' : Pending Q S} {ls : List (Label E D)}
    (h : Runs.run (step P B) ls w = some w') (hi : (w.clients c).reads[i]? = some rd)
    (hj : placeAfter c ls i = some j) (hrd : (w'.clients c).reads[j]? = some rd') :
    rd'.read = rd.read := by
  induction ls generalizing w i rd with
  | nil =>
    cases h
    cases hj
    rw [hi,Option.some.injEq] at hrd
    rw [hrd]
  | cons l ls ih =>
    obtain ⟨u,hs,hrest⟩ := (Runs.run_cons_eq_some _).mp h
    obtain ⟨k,hk,hj⟩ := Option.bind_eq_some_iff.mp hj
    rcases read_of_step hs hi hk with hstop | ⟨rd₁,hi₁,hsame⟩
    · rw [(hstop.run hrest).reads] at hrd
      contradiction
    · rw [ih hrest hi₁ hj,hsame]

end

end Async
