import Mathlib.Algebra.Order.Ring.Int
import Mathlib.Data.Int.Interval
import Mathlib.Tactic.Linarith
import GFLGO.Stats
import GFLGO.Supplies

/-!
How a callback comes by its random values: the chance of a spawn, the place of
an enemy and its name.
-/

set_option autoImplicit false

namespace GFLGO

open Runs Async Supplied

namespace Drawn

def successfulWithPercent (percent : Int) : Supplied Int Bool := do
  let random2 ← twice 1 100
  pure (decide (random2 ≤ percent))

end Drawn

section
variable {K : Type} {percent : Int} {l rest : List Int}

theorem Drawn.successfulWithPercent_eq_some (d : Draw K) {b : Bool} :
    Drawn.successfulWithPercent percent l = some (b,rest) ↔
      ∃ x, twice 1 100 l = some (x,rest) ∧
        MapVC.successfulWithPercent percent { d with random2 := x } = b := by
  rw [Drawn.successfulWithPercent,bind_eq_some]
  constructor
  · rintro ⟨x,mid,hx,hb⟩
    obtain ⟨rfl,rfl⟩ := pure_eq_some.mp hb
    exact ⟨x,hx,rfl⟩
  · rintro ⟨x,hx,rfl⟩
    exact ⟨x,rest,hx,rfl⟩

theorem successfulWithPercent_ncard_of_mem {s : Finset Int} {b : Bool}
    (hs : ∀ x, x ∈ s ↔ (1 ≤ x ∧ x ≤ 100) ∧ decide (x ≤ percent) = b) (k : Nat) :
    { l | l.length = k+2 ∧ Drawn.successfulWithPercent percent l = some (b,[]) }.ncard =
      s.card * 99 := by
  have hruns : { l | l.length = k+2 ∧ Drawn.successfulWithPercent percent l = some (b,[]) } =
      runs 1 100 s k := by
    ext l
    simp only [runs,Set.mem_ofPred_eq,Drawn.successfulWithPercent,bind_eq_some,pure_eq_some]
    refine and_congr_right (fun _ => ⟨?_,?_⟩)
    · rintro ⟨x,mid,hx,hb,rfl⟩
      obtain ⟨_,_,_,hr,_⟩ := twice_eq_some.mp hx
      exact ⟨x,(hs x).mpr ⟨hr,hb⟩,hx⟩
    · rintro ⟨x,hxs,hx⟩
      exact ⟨x,[],hx,((hs x).mp hxs).2,rfl⟩
  rw [hruns,ncard_runs (fun x hx => Finset.mem_Icc.mpr ((hs x).mp hx).1)]
  simp

/-- Of the 9900 supplies of a length that the loop uses up, 99 succeed for each percent. -/
theorem successfulWithPercent_ncard (percent : Int) (k : Nat) :
    { l | l.length = k+2 ∧ Drawn.successfulWithPercent percent l = some (true,[]) }.ncard =
      (min percent 100).toNat * 99 ∧
    { l | l.length = k+2 ∧ Drawn.successfulWithPercent percent l = some (false,[]) }.ncard =
      (100 - (min percent 100).toNat) * 99 := by
  constructor
  · rw [successfulWithPercent_ncard_of_mem (s := Finset.Icc 1 (min percent 100))]
    · simp
    · intro x
      simp only [Finset.mem_Icc,decide_eq_true_eq]
      omega
  · rw [successfulWithPercent_ncard_of_mem (s := Finset.Icc (max 1 (percent+1)) 100)]
    · rw [Int.card_Icc]
      congr 1
      omega
    · intro x
      simp only [Finset.mem_Icc,decide_eq_false_iff_not]
      omega

end

section
variable {K : Type} [Field K] [LinearOrder K] [FloorRing K]

/-- The supplies of a length with which the tick of the timer spawns an enemy. -/
def spawnRuns (p : Platform K) (m : MapVC K) (snapshot : FNode K) (d : Draw K) (k : Nat) :
    Set (List Int) :=
  { l | l.length = k+2 ∧ ∃ x r enemy, twice 1 100 l = some (x,[]) ∧
    m.onRead p .getNumberOfEnemiesAroundUser snapshot { d with random2 := x } = .ok r ∧
    r.reads = [.addEnemyToFirebase enemy] }

omit [FloorRing K] in
theorem countSpawns_iff {p : Platform K} {m : MapVC K} {snapshot : FNode K} {d : Draw K}
    (hu : m.userLocation ≠ none) (hf : ∀ child ∈ snapshot.children, CountFields child.2) :
    MapVC.CountSpawns p snapshot d m ↔
      d.random2 ≤ 20 - (nearChildren p 100 m.userLocation snapshot.children).length ∧
        (nearChildren p 100 m.userLocation snapshot.children).length < 20 := by
  constructor
  · intro h
    exact ⟨by simpa [MapVC.successfulWithPercent] using h.drawn,h.few⟩
  · rintro ⟨hdrawn,hfew⟩
    exact ⟨hu,hf,hfew,by simpa [MapVC.successfulWithPercent] using hdrawn⟩

/-- The chance of a spawn is twenty percent, less one percent for each enemy in range. -/
theorem spawnRuns_ncard {p : Platform K} {m : MapVC K} {snapshot : FNode K}
    (hu : m.userLocation ≠ none) (hf : ∀ child ∈ snapshot.children, CountFields child.2)
    (d : Draw K) (k : Nat) :
    (spawnRuns p m snapshot d k).ncard =
      (20 - (nearChildren p 100 m.userLocation snapshot.children).length) * 99 := by
  let n := (nearChildren p 100 m.userLocation snapshot.children).length
  have hruns : spawnRuns p m snapshot d k = runs 1 100 (Finset.Icc 1 (20 - (n : Int))) k := by
    ext l
    simp only [spawnRuns,runs,Set.mem_ofPred_eq]
    refine and_congr_right (fun _ => ⟨?_,?_⟩)
    · rintro ⟨x,r,enemy,hx,hr,hreads⟩
      obtain ⟨_,_,_,hxr,_⟩ := twice_eq_some.mp hx
      rcases MapVC.onRead_count hr with ⟨hc,-⟩ | ⟨-,rfl⟩
      · exact ⟨x,Finset.mem_Icc.mpr ⟨hxr.1,((countSpawns_iff hu hf).mp hc).1⟩,hx⟩
      · cases hreads
    · rintro ⟨x,hxs,hx⟩
      obtain ⟨hlo,hhi⟩ := Finset.mem_Icc.mp hxs
      have hc : MapVC.CountSpawns p snapshot { d with random2 := x } m :=
        (countSpawns_iff hu hf).mpr ⟨hhi,by omega⟩
      cases hr : m.onRead p .getNumberOfEnemiesAroundUser snapshot { d with random2 := x } with
      | error t => exact absurd hc (MapVC.not_countSpawns_of_error hr)
      | ok r =>
        rcases MapVC.onRead_count hr with ⟨-,enemy,hs⟩ | ⟨hn,-⟩
        · exact ⟨x,r,enemy,hx,hr,hs.reads⟩
        · exact absurd hc hn
  rw [hruns,ncard_runs (Finset.Icc_subset_Icc_right (by omega))]
  simp [n]

end

def oneEnemy : FNode ℚ :=
  .branch [("e",.branch [("latitude",.leaf (.double 0)),("longitude",.leaf (.double 0))])]

theorem spawnRuns_ncard_oneEnemy :
    (spawnRuns planePlatform
      { user := User.init "ann" none 0 50 3.2 10, userLocation := some ⟨0,0⟩ } oneEnemy
      sampleDraw 3).ncard = 19 * 99 := by
  have hf : ∀ child ∈ oneEnemy.children, CountFields child.2 := by
    intro child hc
    rw [List.mem_singleton.mp hc]
    exact ⟨Or.inl ⟨0,rfl⟩,Or.inl ⟨0,rfl⟩⟩
  rw [spawnRuns_ncard (by simp) hf]
  decide +kernel

section
variable {K : Type} [Field K] [LinearOrder K]

def Drawn.getRandomCoordinateAroundUser (p : Platform K) (d : Draw K) (current : Coordinate K) :
    Supplied K (Coordinate K) := do
  let randomChangeX ← twice (-100.0) 100.0
  let randomChangeY ← twice (-100.0) 100.0
  pure (MapVC.getRandomCoordinateAroundUser p { d with randomChangeX, randomChangeY } current)

/-- Every pair of changes up to a hundred metres can be drawn, and no other. -/
theorem Drawn.yields_getRandomCoordinateAroundUser [IsStrictOrderedRing K] (p : Platform K)
    (d : Draw K) (current c : Coordinate K) :
    Yields (Drawn.getRandomCoordinateAroundUser p d current) c ↔
      ∃ x y : K, (-100 ≤ x ∧ x ≤ 100) ∧ (-100 ≤ y ∧ y ≤ 100) ∧
        MapVC.getRandomCoordinateAroundUser p { d with randomChangeX := x, randomChangeY := y }
          current = c := by
  have hlt : (-100 : K) < 100 := by norm_num
  have hlength : (100.0 : K) = 100 := by norm_num
  simp only [Drawn.getRandomCoordinateAroundUser,hlength,yields_bind frames_twice,yields_twice hlt,
    yields_pure]
  constructor
  · rintro ⟨x,hx,y,hy,rfl⟩
    exact ⟨x,y,hx,hy,rfl⟩
  · rintro ⟨x,y,hx,hy,rfl⟩
    exact ⟨x,hx,y,hy,rfl⟩

end

namespace Enemy

def CONSONANTS : List Char :=
  ['b','c','d','f','g','h','j','k','l','m','n','p','q','r','s','t','v','w','x','y','z']

def VOWELS : List Char := ['a','e','i','o','u']

def drawLetter (letters : List Char) : Supplied Int Char := do
  let index ← random 0 (letters.length - 1)
  liftM letters[index.toNat]?

/-- `CONSONANTS.contains(lastChar)` decides what is drawn next. -/
def nextLetter (lastChar : Char) : Supplied Int Char :=
  if lastChar ∈ CONSONANTS then drawLetter VOWELS else drawLetter CONSONANTS

def addLetters : Nat → List Char → Supplied Int (List Char)
  | 0, randomName => pure randomName
  | n+1, randomName => do
    let lastChar ← liftM randomName.getLast?
    let randomChar ← nextLetter lastChar
    addLetters n (randomName ++ [randomChar])

/-- `prefix(1).capitalized + dropFirst()`. -/
def capitalized : List Char → List Char
  | [] => []
  | c :: cs => c.toUpper :: cs

/-- Nothing but 0 and 1 is drawn, so the third branch is never taken. -/
def firstLetter (randomStart : Int) : Supplied Int (List Char) :=
  if randomStart = 0 then do
    let randomFirst ← drawLetter CONSONANTS
    pure [randomFirst]
  else if randomStart = 1 then do
    let randomFirst ← drawLetter VOWELS
    pure [randomFirst]
  else pure []

def createRandomName : Supplied Int String := do
  let randomLength ← twice 4 7
  let randomStart ← random 0 1
  let randomName ← firstLetter randomStart
  let randomName ← addLetters randomLength.toNat randomName
  pure ("Aegis - " ++ String.ofList (capitalized randomName))

/-- A vowel follows a consonant, and a consonant follows a vowel. -/
def Follows (a b : Char) : Prop :=
  if a ∈ CONSONANTS then b ∈ VOWELS else b ∈ CONSONANTS

theorem frames_drawLetter (letters : List Char) : Frames (drawLetter letters) :=
  frames_random.bind (fun _ => frames_lift _)

theorem yields_drawLetter {letters : List Char} {c : Char} :
    Yields (drawLetter letters) c ↔ c ∈ letters := by
  simp only [drawLetter,yields_bind frames_random,yields_random,yields_lift]
  constructor
  · rintro ⟨i,-,hc⟩
    exact List.mem_of_getElem? hc
  · intro hc
    obtain ⟨i,hi,hget⟩ := List.getElem_of_mem hc
    exact ⟨i,by omega,by simp [hi,hget]⟩

theorem yields_nextLetter {a c : Char} : Yields (nextLetter a) c ↔ Follows a c := by
  unfold nextLetter Follows
  split
  · exact yields_drawLetter
  · exact yields_drawLetter

theorem frames_nextLetter (a : Char) : Frames (nextLetter a) := by
  unfold nextLetter
  split
  · exact frames_drawLetter VOWELS
  · exact frames_drawLetter CONSONANTS

theorem frames_firstLetter (randomStart : Int) : Frames (firstLetter randomStart) := by
  unfold firstLetter
  split
  · exact (frames_drawLetter CONSONANTS).bind (fun _ => frames_pure _)
  · split
    · exact (frames_drawLetter VOWELS).bind (fun _ => frames_pure _)
    · exact frames_pure []

theorem yields_firstLetter {w : List Char} :
    (∃ randomStart : Int, (0 ≤ randomStart ∧ randomStart ≤ 1) ∧
      Yields (firstLetter randomStart) w) ↔
      ∃ c, (c ∈ CONSONANTS ∨ c ∈ VOWELS) ∧ w = [c] := by
  constructor
  · rintro ⟨i,hi,h⟩
    obtain rfl | rfl : i = 0 ∨ i = 1 := by omega
    · obtain ⟨c,hc,hw⟩ := (yields_bind (frames_drawLetter CONSONANTS)).mp h
      exact ⟨c,Or.inl (yields_drawLetter.mp hc),(yields_pure.mp hw).symm⟩
    · obtain ⟨c,hc,hw⟩ := (yields_bind (frames_drawLetter VOWELS)).mp h
      exact ⟨c,Or.inr (yields_drawLetter.mp hc),(yields_pure.mp hw).symm⟩
  · rintro ⟨c,hc | hc,rfl⟩
    · exact ⟨0,by omega,(yields_bind (frames_drawLetter CONSONANTS)).mpr
        ⟨c,yields_drawLetter.mpr hc,yields_pure.mpr rfl⟩⟩
    · exact ⟨1,by omega,(yields_bind (frames_drawLetter VOWELS)).mpr
        ⟨c,yields_drawLetter.mpr hc,yields_pure.mpr rfl⟩⟩

theorem frames_addLetters (n : Nat) (w : List Char) : Frames (addLetters n w) := by
  induction n generalizing w with
  | zero => exact frames_pure w
  | succ n ih =>
    exact (frames_lift _).bind (fun a => (frames_nextLetter a).bind (fun c => ih (w ++ [c])))

theorem yields_addLetters {n : Nat} {w : List Char} {a : Char} {v : List Char} :
    Yields (addLetters n (w ++ [a])) v ↔
      ∃ cs, v = w ++ a :: cs ∧ cs.length = n ∧ (a :: cs).IsChain Follows := by
  induction n generalizing w a with
  | zero =>
    rw [addLetters,yields_pure]
    constructor
    · rintro rfl
      exact ⟨[],rfl,rfl,List.isChain_singleton a⟩
    · rintro ⟨cs,rfl,hlen,-⟩
      rw [List.length_eq_zero_iff.mp hlen]
  | succ n ih =>
    rw [addLetters,yields_bind (frames_lift _)]
    simp only [yields_lift,List.getLast?_append,List.getLast?_singleton,Option.some_or,
      Option.some.injEq]
    constructor
    · rintro ⟨_,rfl,h⟩
      obtain ⟨c,hc,h⟩ := (yields_bind (frames_nextLetter a)).mp h
      obtain ⟨cs,rfl,hlen,hchain⟩ := ih.mp h
      exact ⟨c :: cs,by simp,by simp [hlen],
        List.isChain_cons_cons.mpr ⟨yields_nextLetter.mp hc,hchain⟩⟩
    · rintro ⟨cs,rfl,hlen,hchain⟩
      cases cs with
      | nil => contradiction
      | cons c cs =>
        obtain ⟨hc,hchain⟩ := List.isChain_cons_cons.mp hchain
        refine ⟨a,rfl,(yields_bind (frames_nextLetter a)).mpr ⟨c,yields_nextLetter.mpr hc,?_⟩⟩
        exact ih.mpr ⟨cs,by simp,by simpa using hlen,hchain⟩

/-- A capitalized word of five to eight letters in which vowels and consonants take turns. -/
def IsName (name : String) : Prop :=
  ∃ c cs, (4 ≤ cs.length ∧ cs.length ≤ 7) ∧ (c ∈ CONSONANTS ∨ c ∈ VOWELS) ∧
    (c :: cs).IsChain Follows ∧ name = "Aegis - " ++ String.ofList (c.toUpper :: cs)

theorem isName_of_yields {name : String} (h : Yields createRandomName name) : IsName name := by
  obtain ⟨n,hn,h⟩ := (yields_bind frames_twice).mp h
  obtain ⟨i,hi,h⟩ := (yields_bind frames_random).mp h
  obtain ⟨w,hw,h⟩ := (yields_bind (frames_firstLetter i)).mp h
  obtain ⟨v,hv,h⟩ := (yields_bind (frames_addLetters n.toNat w)).mp h
  have hlen := (yields_twice (by decide)).mp hn
  obtain ⟨c,hc,rfl⟩ := yields_firstLetter.mp ⟨i,yields_random.mp hi,hw⟩
  obtain ⟨cs,rfl,hcs,hchain⟩ := (yields_addLetters (w := [])).mp hv
  exact ⟨c,cs,by omega,hc,hchain,(yields_pure.mp h).symm⟩

theorem yields_of_isName {name : String} (h : IsName name) : Yields createRandomName name := by
  obtain ⟨c,cs,hlen,hc,hchain,rfl⟩ := h
  obtain ⟨i,hi,hw⟩ := yields_firstLetter.mpr ⟨c,hc,rfl⟩
  have hcs : Yields (addLetters (cs.length : Int).toNat [c]) (c :: cs) :=
    (yields_addLetters (w := [])).mpr ⟨cs,rfl,by simp,hchain⟩
  refine (yields_bind frames_twice).mpr ⟨cs.length,(yields_twice (by decide)).mpr (by omega),?_⟩
  refine (yields_bind frames_random).mpr ⟨i,yields_random.mpr hi,?_⟩
  refine (yields_bind (frames_firstLetter i)).mpr ⟨[c],hw,?_⟩
  exact (yields_bind (frames_addLetters _ _)).mpr ⟨c :: cs,hcs,yields_pure.mpr rfl⟩

/-- All of these words are drawn, and nothing else. -/
theorem yields_createRandomName (name : String) :
    Yields createRandomName name ↔ IsName name :=
  ⟨isName_of_yields,yields_of_isName⟩

end Enemy

/-- If every callback draws its name, no other names are stored or shown. -/
theorem names_of_run {K : Type} [Field K] [LinearOrder K] [FloorRing K] [IsStrictOrderedRing K]
    {p : Platform K} {ls : List (Label K)} {w : World K}
    (hn : ∀ l ∈ ls, ∀ draw, drawOf l = some draw →
      Yields Enemy.createRandomName draw.randomName)
    (hr : run (step p) ls (World.start .empty) = some w) :
    (∀ id name, w.store.getChild ["enemies",id,"name"] = .leaf (.string name) →
      Enemy.IsName name) ∧
    ∀ c, ∀ t ∈ (w.clients c).locals.tabBarVCs, ∀ enemy ∈ t.map.enemyAnnotations, ∀ name,
      enemy.name = some name → Enemy.IsName name := by
  have hplay := inPlay_of_run hn hr
  constructor
  · intro id name hv
    have hc := hplay.store.getChild ["enemies",id,"name"]
    rw [hv] at hc
    exact Enemy.isName_of_yields hc.of_leaf.enemyField.of_name
  · intro c t ht enemy he name hname
    have hroam := (hplay.sessions c t ht).annotations enemy he
    exact Enemy.isName_of_yields (hroam.name name hname)

def abeba : Draw ℚ := { sampleDraw with randomName := "Aegis - Abeba" }

def namedSpawn : List (Label ℚ) :=
  signup 0 abeba 0 "ann" "pw" ++ login 0 abeba "ann" "pw" ++ locate 0 abeba 0 ⟨0,0⟩ ++
    addEnemy 0 abeba 0

theorem names_of_run_abeba : ∃ w,
    run (step planePlatform) namedSpawn (World.start .empty) = some w ∧
    w.store.getChild ["enemies","u0e1500000000d0","name"] = .leaf (.string "Aegis - Abeba") ∧
    Enemy.IsName "Aegis - Abeba" := by
  have hdraws : namedSpawn.all
      (fun l => (drawOf l).all (fun d => d.randomName = "Aegis - Abeba")) = true := by
    decide +kernel
  have hdrawn : Yields Enemy.createRandomName "Aegis - Abeba" :=
    ⟨[5,4,1,0,0,1,0,0],[],by decide⟩
  have hrun : (run (step planePlatform) namedSpawn (World.start .empty)).map
      (fun w => leafString (w.store.getChild ["enemies","u0e1500000000d0","name"])) =
        some (some "Aegis - Abeba") := by
    decide +kernel
  obtain ⟨w,hw,hv⟩ := Option.map_eq_some_iff.mp hrun
  have hleaf := leafString_eq_some.mp hv
  refine ⟨w,hw,hleaf,(names_of_run (fun l hl draw hd => ?_) hw).1 _ _ hleaf⟩
  have hname : draw.randomName = "Aegis - Abeba" := by
    simpa [hd] using List.all_eq_true.mp hdraws l hl
  exact hname ▸ hdrawn

end GFLGO
