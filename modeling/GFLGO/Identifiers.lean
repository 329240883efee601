import Mathlib.Data.Rat.Floor
import GFLGO.Spawns
import GFLGO.Records

/-!
The identifiers of enemies: the user and the time are read back from them, and
they are keys that Firebase stores.
-/

set_option autoImplicit false

namespace GFLGO

theorem takeWhile_field {α : Type} {p : α → Bool} {xs : List α} {y : α}
    (hx : ∀ x ∈ xs, p x = true) (hy : p y = false) (ys : List α) :
    (xs ++ y :: ys).takeWhile p = xs ∧ (xs ++ y :: ys).dropWhile p = y :: ys := by
  constructor
  · rw [List.takeWhile_append_of_pos hx,List.takeWhile_cons_of_neg (by simp [hy]),List.append_nil]
  · rw [List.dropWhile_append_of_pos hx,List.dropWhile_cons_of_neg (by simp [hy])]

theorem ne_of_isDigit {c x : Char} (h : c.isDigit = true) (hx : x.isDigit = false) : c ≠ x := by
  rintro rfl
  rw [h] at hx
  contradiction

/-- What `String(x)` is assumed to print for a finite number. -/
structure PrintsDoubles {K : Type} (p : Platform K) : Prop where
  injective : Function.Injective p.string
  alphabet : ∀ x, ∀ c ∈ (p.string x).toList, c.isDigit = true ∨ c ∈ ['.','-','+','e']

/-- The characters that no key may have. -/
def forbidden : List Char := ['.','#','$','[',']','/']

def Storable (key : String) : Prop := key ≠ "" ∧ ∀ c ∈ key.toList, c ∉ forbidden

namespace MapVC

section
variable {K : Type}

theorem toList_getUniqueEnemyID (p : Platform K) (d : Draw K) (user : User K) :
    (getUniqueEnemyID p d user).toList = 'u' :: ((stringOfInt user.userID).toList ++
      'e' :: (p.string d.time).toList.map (fun c => if c = '.' then 'd' else c)) := by
  simp [getUniqueEnemyID,String.toList_append]

theorem getUniqueEnemyID_congr {p : Platform K} {d₁ d₂ : Draw K} {user₁ user₂ : User K}
    (hu : user₁.userID = user₂.userID) (ht : d₁.time = d₂.time) :
    getUniqueEnemyID p d₁ user₁ = getUniqueEnemyID p d₂ user₂ := by
  rw [getUniqueEnemyID,getUniqueEnemyID,hu,ht]

/-- Reads the user and the text of the time back. -/
def readEnemyID : List Char → Option (Int × List Char)
  | 'u' :: rest =>
    (intOfChars (rest.takeWhile (fun c => c ≠ 'e'))).map (fun userID =>
      (userID,(rest.dropWhile (fun c => c ≠ 'e')).tail.map (fun c => if c = 'd' then '.' else c)))
  | _ => none

variable {p : Platform K}

/-- No text of a number has a `d`, so that no two texts become one. -/
theorem map_dot (hp : PrintsDoubles p) (x : K) :
    ((p.string x).toList.map (fun c => if c = '.' then 'd' else c)).map
      (fun c => if c = 'd' then '.' else c) = (p.string x).toList := by
  rw [List.map_map]
  refine (List.map_congr_left (fun c hc => ?_)).trans (List.map_id _)
  have hd : c ≠ 'd' := by
    rcases hp.alphabet x c hc with h | h
    · exact ne_of_isDigit h (by decide)
    · rintro rfl
      exact absurd h (by decide)
  by_cases hdot : c = '.'
  · simp [hdot]
  · simp [hdot,hd]

theorem readEnemyID_getUniqueEnemyID (hp : PrintsDoubles p) (d : Draw K) (user : User K) :
    readEnemyID (getUniqueEnemyID p d user).toList =
      some (user.userID,(p.string d.time).toList) := by
  have hfield : ∀ c ∈ (stringOfInt user.userID).toList, decide (c ≠ 'e') = true := by
    intro c hc
    rcases mem_stringOfInt hc with h | rfl
    · simpa using ne_of_isDigit h (by decide)
    · decide
  obtain ⟨htake,hdrop⟩ := takeWhile_field (y := 'e') hfield (by decide)
    ((p.string d.time).toList.map (fun c => if c = '.' then 'd' else c))
  have huser := intOfString_stringOfInt user.userID
  rw [intOfString] at huser
  simp only [toList_getUniqueEnemyID,readEnemyID]
  rw [htake,hdrop,huser,List.tail_cons,map_dot hp]
  rfl

theorem mem_getUniqueEnemyID (hp : PrintsDoubles p) {d : Draw K} {user : User K} {c : Char}
    (h : c ∈ (getUniqueEnemyID p d user).toList) :
    c.isDigit = true ∨ c ∈ ['u','e','d','-','+'] := by
  rw [toList_getUniqueEnemyID,List.mem_cons,List.mem_append,List.mem_cons] at h
  rcases h with rfl | h | rfl | h
  · exact Or.inr (by decide)
  · rcases mem_stringOfInt h with h | rfl
    · exact Or.inl h
    · exact Or.inr (by decide)
  · exact Or.inr (by decide)
  · obtain ⟨x,hx,rfl⟩ := List.mem_map.mp h
    by_cases hdot : x = '.'
    · exact Or.inr (by simp [hdot])
    · rw [if_neg hdot]
      rcases hp.alphabet d.time x hx with hx | hx
      · exact Or.inl hx
      · simp only [List.mem_cons,List.not_mem_nil,or_false] at hx ⊢
        tauto

theorem storable_getUniqueEnemyID (hp : PrintsDoubles p) (d : Draw K) (user : User K) :
    Storable (getUniqueEnemyID p d user) := by
  constructor
  · intro h
    have hnil := congrArg String.toList h
    rw [toList_getUniqueEnemyID] at hnil
    contradiction
  · intro c hc hforbidden
    rcases mem_getUniqueEnemyID hp hc with h | h
    · have hnot : ∀ x ∈ forbidden, x.isDigit = false := by simp [forbidden]
      rw [hnot c hforbidden] at h
      contradiction
    · have hnot : ∀ x ∈ ['u','e','d','-','+'], x ∉ forbidden := by simp [forbidden]
      exact hnot c h hforbidden

theorem getUniqueEnemyID_injective (hp : PrintsDoubles p) {d₁ d₂ : Draw K} {user₁ user₂ : User K}
    (h : getUniqueEnemyID p d₁ user₁ = getUniqueEnemyID p d₂ user₂) :
    user₁.userID = user₂.userID ∧ d₁.time = d₂.time := by
  have hread := congrArg (fun s => readEnemyID s.toList) h
  simp only [readEnemyID_getUniqueEnemyID hp,Option.some.injEq,Prod.mk.injEq] at hread
  exact ⟨hread.1,hp.injective (String.toList_injective hread.2)⟩

end

section
variable {K : Type} [Field K] [LinearOrder K] [FloorRing K]

/-- No two spawns of different users or times share an identifier, and the
writes of a spawn lie under the one child that it names. -/
structure IdentifiesSpawns (p : Platform K) : Prop where
  injective : ∀ (d₁ d₂ : Draw K) (user₁ user₂ : User K),
    getUniqueEnemyID p d₁ user₁ = getUniqueEnemyID p d₂ user₂ →
    user₁.userID = user₂.userID ∧ d₁.time = d₂.time
  storable : ∀ (d : Draw K) (user : User K), Storable (getUniqueEnemyID p d user)
  oneChild : ∀ (d : Draw K) (m : MapVC K) (r : MapReaction K), m.spawnEnemy p d = .ok r →
    ∃ enemy, r.reads = [.addEnemyToFirebase enemy] ∧
      ∀ (snapshot : FNode K) (d' : Draw K) (m' : MapVC K) (r' : MapReaction K),
        m'.onRead p (.addEnemyToFirebase enemy) snapshot d' = .ok r' →
        r'.writes = enemyWrites enemy ∧ ∀ w ∈ r'.writes, ∀ (d₁ : Draw K) (user : User K),
          ["enemies",getUniqueEnemyID p d₁ user] <+: w.path ↔
            user.userID = m.user.userID ∧ d₁.time = d.time

/-- Identifiers are free of collisions and can be stored. -/
theorem identifiesSpawns_of_printsDoubles {p : Platform K} (hp : PrintsDoubles p) :
    IdentifiesSpawns p := by
  refine ⟨fun _ _ _ _ h => getUniqueEnemyID_injective hp h,storable_getUniqueEnemyID hp,?_⟩
  intro d m r h
  obtain ⟨enemy,hs⟩ := spawn_of_ok h
  refine ⟨enemy,hs.reads,?_⟩
  intro snapshot d' m' r' hr
  cases hr
  refine ⟨rfl,fun w hw d₁ user => ?_⟩
  obtain ⟨rest,hpath⟩ := enemyWrites_path enemy w hw
  rw [hpath,hs.identifier,List.cons_prefix_cons,List.cons_prefix_cons]
  constructor
  · intro hsame
    exact getUniqueEnemyID_injective hp hsame.2.1
  · intro hsame
    exact ⟨rfl,getUniqueEnemyID_congr hsame.1 hsame.2,List.nil_prefix⟩

end

/-- Whole numbers as Swift prints them; others by numerator and denominator. -/
def fraction (den : Nat) : String := if den = 1 then ".0" else "e" ++ stringOfInt den

def printedPlatform : Platform ℚ :=
  { planePlatform with string := fun x => stringOfInt x.num ++ fraction x.den }

theorem toList_fraction (den : Nat) : ∃ c cs, (fraction den).toList = c :: cs ∧
    decide (c.isDigit = true ∨ c = '-') = false := by
  unfold fraction
  split
  · exact ⟨'.',['0'],rfl,by decide⟩
  · refine ⟨'e',(stringOfInt den).toList,?_,by decide⟩
    rw [String.toList_append]
    rfl

theorem mem_fraction {den : Nat} {c : Char} (h : c ∈ (fraction den).toList) :
    c.isDigit = true ∨ c ∈ ['.','-','+','e'] := by
  unfold fraction at h
  split at h
  · have hc : c = '.' ∨ c = '0' := by simpa using h
    rcases hc with rfl | rfl
    · exact Or.inr (by simp)
    · exact Or.inl rfl
  · rw [String.toList_append] at h
    rcases List.mem_append.mp h with h | h
    · have he : c = 'e' := by simpa using h
      exact Or.inr (by simp [he])
    · exact (mem_stringOfInt h).imp_right (fun h => by simp [h])

theorem fraction_injective {m n : Nat} (h : fraction m = fraction n) : m = n := by
  have hchars := congrArg String.toList h
  unfold fraction at hchars
  split at hchars
  · next hm =>
    split at hchars
    · next hn => omega
    · simp [String.toList_append] at hchars
  · split at hchars
    · simp [String.toList_append] at hchars
    · have hsame : stringOfInt m = stringOfInt n := by
        simpa [String.toList_append,String.toList_inj] using hchars
      have := stringOfInt_injective hsame
      omega

theorem printsDoubles_printedPlatform : PrintsDoubles printedPlatform := by
  constructor
  · intro x y h
    have hchars : (stringOfInt x.num).toList ++ (fraction x.den).toList =
        (stringOfInt y.num).toList ++ (fraction y.den).toList := by
      simpa [printedPlatform] using congrArg String.toList h
    obtain ⟨c,cs,hx,hc⟩ := toList_fraction x.den
    obtain ⟨c',cs',hy,hc'⟩ := toList_fraction y.den
    rw [hx,hy] at hchars
    have hfield (n : Int) : ∀ c ∈ (stringOfInt n).toList,
        decide (c.isDigit = true ∨ c = '-') = true := fun c h => decide_eq_true (mem_stringOfInt h)
    obtain ⟨htake,hdrop⟩ := takeWhile_field (hfield x.num) hc cs
    obtain ⟨htake',hdrop'⟩ := takeWhile_field (hfield y.num) hc' cs'
    rw [hchars] at htake hdrop
    have hnum := htake.symm.trans htake'
    have hden := hdrop.symm.trans hdrop'
    rw [← hx,← hy] at hden
    exact Rat.ext (stringOfInt_injective (String.toList_injective hnum))
      (fraction_injective (String.toList_injective hden))
  · intro x c hc
    have hchars : c ∈ (stringOfInt x.num).toList ++ (fraction x.den).toList := by
      simpa [printedPlatform] using hc
    rcases List.mem_append.mp hchars with h | h
    · exact (mem_stringOfInt h).imp_right (fun h => by simp [h])
    · exact mem_fraction h

theorem identifiesSpawns_printedPlatform : IdentifiesSpawns printedPlatform ∧
    getUniqueEnemyID printedPlatform sampleDraw (User.init "ann" none (-3) 50 3.2 10) =
      "u-3e1500000000d0" :=
  ⟨identifiesSpawns_of_printsDoubles printsDoubles_printedPlatform,by decide⟩

end MapVC

end GFLGO
