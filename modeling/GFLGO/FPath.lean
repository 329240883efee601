import Mathlib.Data.List.Infix
import GFLGO.KeyComparator

/-!
`FPath`: the pieces of a path and the number of those already walked. A path
shares its pieces with the paths it was walked from.
-/

set_option autoImplicit false

namespace GFLGO

structure FPath where
  pieces : List String
  pieceNum : Nat
  pieceNum_le : pieceNum ≤ pieces.length
  deriving DecidableEq, Repr

/-- The non-empty pieces between slashes. -/
def piecesOf (path : String) : List String :=
  ((path.toList.splitOn '/').map String.ofList).filter (fun piece => 0 < piece.length)

namespace FPath

def components (p : FPath) : List String := p.pieces.drop p.pieceNum

def ofPieces (pieces : List String) : FPath := ⟨pieces,0,Nat.zero_le _⟩

def initWith (path : String) : FPath := ofPieces (piecesOf path)

def empty : FPath := initWith ""

def getFront (p : FPath) : Option String :=
  if p.pieces.length ≤ p.pieceNum then none else p.pieces[p.pieceNum]?

def length (p : FPath) : Nat := p.pieces.length - p.pieceNum

def popFront (p : FPath) : FPath :=
  if h : p.pieceNum < p.pieces.length then ⟨p.pieces,p.pieceNum+1,h⟩ else p

def getBack (p : FPath) : Option String :=
  if p.pieceNum < p.pieces.length then p.pieces.getLast? else none

def isEmpty (p : FPath) : Bool := p.pieces.length ≤ p.pieceNum

def toStringWithTrailingSlash (p : FPath) (trailingSlash : Bool) : String :=
  let pathString := p.components.foldl (fun s piece => s ++ "/" ++ piece) ""
  if pathString.length = 0 then "/"
  else if trailingSlash then pathString ++ "/" else pathString

def toString (p : FPath) : String := p.toStringWithTrailingSlash false

def wireFormat (p : FPath) : String :=
  if p.isEmpty then "/"
  else
    match p.components with
    | [] => ""
    | piece :: rest => rest.foldl (fun s piece => s ++ "/" ++ piece) piece

def parent (p : FPath) : Option FPath :=
  if p.pieces.length ≤ p.pieceNum then none
  else some (ofPieces ((p.pieces.take (p.pieces.length-1)).drop p.pieceNum))

def child (p childPath : FPath) : FPath := ofPieces (p.components ++ childPath.components)

def childFromString (p : FPath) (childPath : String) : FPath :=
  ofPieces (p.components ++ piecesOf childPath)

/-- The loop of `contains:`, from the two positions on. -/
def sameSegments : List String → List String → Bool
  | [], _ => true
  | _ :: _, [] => false
  | thisSeg :: this, otherSeg :: other => thisSeg == otherSeg && sameSegments this other

def contains (p other : FPath) : Bool :=
  if other.length < p.length then false else sameSegments p.components other.components

def isEqual (p other : FPath) : Bool :=
  if p.length ≠ other.length then false else sameSegments p.components other.components

/-- The reason names what is left of the two paths where they part. -/
def notWithin (outer inner : FPath) : NSException :=
  ⟨"FirebaseDatabaseInternalError",
    s!"innerPath ({inner.toString}) is not within outerPath ({outer.toString})"⟩

theorem length_popFront {p : FPath} {front : String} (h : p.getFront = some front) :
    p.popFront.length < p.length := by
  unfold getFront at h
  split at h
  · cases h
  · next hl =>
    simp only [popFront,dif_pos (Nat.lt_of_not_le hl),length]
    omega

def relativePathFrom (outer inner : FPath) : Except NSException FPath :=
  match _h : outer.getFront with
  | none => .ok inner
  | some outerFront =>
    if inner.getFront = some outerFront then relativePathFrom outer.popFront inner.popFront
    else .error (notWithin outer inner)
termination_by outer.length
decreasing_by exact length_popFront _h

/-- The loop of `compare:`. -/
def compareSegments : List String → List String → Ordering
  | piece :: this, otherPiece :: other =>
    (compareKey piece otherPiece).then (compareSegments this other)
  | [], _ :: _ => .lt
  | _ :: _, [] => .gt
  | [], [] => .eq

/-- After the common pieces the shorter path comes first. -/
def compare (p other : FPath) : Ordering := compareSegments p.components other.components

end FPath

theorem piecesOf_append (s t : String) : piecesOf (s ++ "/" ++ t) = piecesOf s ++ piecesOf t := by
  have hl : (s ++ "/" ++ t).toList = s.toList ++ '/' :: t.toList := by simp
  rw [piecesOf,hl,List.splitOn_append_cons_self,List.map_append,List.filter_append]
  rfl

theorem piecesOf_empty : piecesOf "" = [] := by decide

def Piece (piece : String) : Prop := piece ≠ "" ∧ '/' ∉ piece.toList

theorem piecesOf_piece {piece : String} (h : Piece piece) : piecesOf piece = [piece] := by
  have hlen : 0 < piece.length := by
    rw [← String.length_toList]
    exact List.length_pos_iff.mpr (fun he => h.1 (String.toList_inj.mp he))
  rw [piecesOf,List.splitOn_eq_singleton h.2]
  simp [hlen]

theorem not_mem_of_mem_splitOn {cs piece : List Char} (h : piece ∈ cs.splitOn '/') :
    '/' ∉ piece := by
  induction cs generalizing piece with
  | nil =>
    rw [List.splitOn_nil,List.mem_singleton] at h
    simp [h]
  | cons c cs ih =>
    rw [List.splitOn_cons_eq_if_modifyHead] at h
    split at h
    · rcases List.mem_cons.mp h with rfl | h
      · simp
      · exact ih h
    · next hc =>
      cases hs : cs.splitOn '/' with
      | nil => exact absurd hs (List.splitOn_ne_nil _ _)
      | cons first rest =>
        rw [hs] at h
        rcases List.mem_cons.mp h with rfl | h
        · have hf := ih (hs ▸ List.mem_cons_self)
          have hne : ¬ '/' = c := fun he => hc (beq_iff_eq.mpr he.symm)
          simp [hne,hf]
        · exact ih (hs ▸ List.mem_cons_of_mem _ h)

theorem piece_of_mem_piecesOf {s piece : String} (h : piece ∈ piecesOf s) : Piece piece := by
  obtain ⟨hm,hl⟩ := List.mem_filter.mp h
  obtain ⟨cs,hcs,rfl⟩ := List.mem_map.mp hm
  refine ⟨fun he => ?_,?_⟩
  · rw [he] at hl
    cases hl
  · rw [String.toList_ofList]
    exact not_mem_of_mem_splitOn hcs

namespace FPath

@[simp] theorem components_ofPieces (pieces : List String) :
    (ofPieces pieces).components = pieces := rfl

@[simp] theorem components_initWith (s : String) : (initWith s).components = piecesOf s := rfl

@[simp] theorem length_components (p : FPath) : p.components.length = p.length :=
  List.length_drop

@[simp] theorem getFront_eq (p : FPath) : p.getFront = p.components.head? := by
  rw [getFront,components,List.head?_drop]
  split
  · next h => exact (List.getElem?_eq_none h).symm
  · rfl

@[simp] theorem components_popFront (p : FPath) : p.popFront.components = p.components.tail := by
  rw [popFront]
  split
  · exact List.tail_drop.symm
  · next h => rw [components,List.drop_eq_nil_of_le (Nat.le_of_not_lt h),List.tail_nil]

@[simp] theorem isEmpty_eq (p : FPath) : p.isEmpty = p.components.isEmpty := by
  rw [isEmpty,components,Bool.eq_iff_iff]
  simp

@[simp] theorem getBack_eq (p : FPath) : p.getBack = p.components.getLast? := by
  rw [getBack,components,List.getLast?_drop]
  split
  · next h => rw [if_neg (Nat.not_le_of_lt h)]
  · next h => rw [if_pos (Nat.le_of_not_lt h)]

@[simp] theorem components_child (p q : FPath) :
    (p.child q).components = p.components ++ q.components := rfl

@[simp] theorem components_childFromString (p : FPath) (s : String) :
    (p.childFromString s).components = p.components ++ piecesOf s := rfl

theorem parent_eq (p : FPath) : p.parent.map components =
    if p.components = [] then none else some p.components.dropLast := by
  rw [parent,components]
  by_cases h : p.pieces.length ≤ p.pieceNum
  · rw [if_pos h,if_pos (List.drop_eq_nil_of_le h),Option.map_none]
  · rw [if_neg h,if_neg (by simpa using h),Option.map_some,components_ofPieces,
      ← List.dropLast_eq_take,List.dropLast_drop_eq_drop_dropLast]

theorem sameSegments_iff (this other : List String) :
    sameSegments this other = true ↔ this <+: other := by
  induction this generalizing other with
  | nil => simp [sameSegments]
  | cons a this ih =>
    cases other with
    | nil => simp [sameSegments]
    | cons b other => simp [sameSegments,ih,List.cons_prefix_cons]

theorem contains_iff (p other : FPath) :
    p.contains other = true ↔ p.components <+: other.components := by
  rw [contains]
  split
  · next h =>
    refine ⟨by simp,fun hp => ?_⟩
    have hl := hp.length_le
    rw [length_components,length_components] at hl
    omega
  · exact sameSegments_iff _ _

theorem isEqual_iff (p other : FPath) :
    p.isEqual other = true ↔ p.components = other.components := by
  rw [isEqual,← length_components,← length_components]
  split
  · next h =>
    refine ⟨by simp,fun he => absurd (congrArg List.length he) h⟩
  · next h =>
    rw [sameSegments_iff]
    exact ⟨fun hp => hp.eq_of_length (not_not.mp h),fun he => he ▸ List.prefix_refl _⟩

theorem relativePathFrom_of_none {outer : FPath} (inner : FPath) (h : outer.getFront = none) :
    relativePathFrom outer inner = .ok inner := by
  unfold relativePathFrom
  split
  · rfl
  · next h' => cases h.symm.trans h'

theorem relativePathFrom_of_some {outer : FPath} (inner : FPath) {front : String}
    (h : outer.getFront = some front) : relativePathFrom outer inner =
      if inner.getFront = some front then relativePathFrom outer.popFront inner.popFront
      else .error (notWithin outer inner) := by
  rw [relativePathFrom]
  split
  · next h' => cases h.symm.trans h'
  · next h' =>
    cases h.symm.trans h'
    rfl

theorem relativePathFrom_spec (outer inner : FPath) :
    match relativePathFrom outer inner with
    | .ok relative => outer.components ++ relative.components = inner.components
    | .error _ => ¬ outer.components <+: inner.components := by
  induction outer, inner using relativePathFrom.induct with
  | case1 outer inner h =>
    rw [relativePathFrom_of_none inner h]
    rw [getFront_eq,List.head?_eq_none_iff] at h
    simp [h]
  | case2 outer inner front h hi ih =>
    rw [relativePathFrom_of_some inner h,if_pos hi]
    rw [getFront_eq,List.head?_eq_some_iff] at h hi
    obtain ⟨os,ho⟩ := h
    obtain ⟨is,hi⟩ := hi
    simp only [components_popFront,ho,hi,List.tail_cons] at ih ⊢
    cases hr : relativePathFrom outer.popFront inner.popFront with
    | ok relative =>
      rw [hr] at ih
      exact congrArg (front :: ·) ih
    | error e =>
      rw [hr] at ih
      simpa [List.cons_prefix_cons] using ih
  | case3 outer inner front h hi =>
    rw [relativePathFrom_of_some inner h,if_neg hi]
    rw [getFront_eq,List.head?_eq_some_iff] at h
    obtain ⟨os,ho⟩ := h
    rintro ⟨rest,hr⟩
    apply hi
    rw [getFront_eq,← hr,ho]
    rfl

theorem piecesOf_foldl {pieces : List String} (h : ∀ piece ∈ pieces, Piece piece) (s : String) :
    piecesOf (pieces.foldl (fun s piece => s ++ "/" ++ piece) s) = piecesOf s ++ pieces := by
  induction pieces generalizing s with
  | nil => simp
  | cons piece pieces ih =>
    rw [List.foldl_cons,ih (fun q hq => h q (List.mem_cons_of_mem _ hq)),piecesOf_append,
      piecesOf_piece (h piece List.mem_cons_self),List.append_assoc]
    rfl

theorem piecesOf_trailing (s : String) : piecesOf (s ++ "/") = piecesOf s := by
  have h := piecesOf_append s ""
  rw [String.append_empty] at h
  rw [h,piecesOf_empty,List.append_nil]

theorem piecesOf_toStringWithTrailingSlash {p : FPath} (h : ∀ piece ∈ p.components, Piece piece)
    (trailingSlash : Bool) :
    piecesOf (p.toStringWithTrailingSlash trailingSlash) = p.components := by
  have hf := piecesOf_foldl h ""
  rw [piecesOf_empty,List.nil_append] at hf
  simp only [toStringWithTrailingSlash]
  split
  · next he =>
    rw [String.length_eq_zero_iff.mp he,piecesOf_empty] at hf
    rw [← hf]
    exact piecesOf_trailing ""
  · split
    · rw [piecesOf_trailing,hf]
    · exact hf

theorem piecesOf_wireFormat {p : FPath} (h : ∀ piece ∈ p.components, Piece piece) :
    piecesOf p.wireFormat = p.components := by
  rw [wireFormat,isEmpty_eq]
  cases hp : p.components with
  | nil => exact piecesOf_trailing ""
  | cons piece rest =>
    rw [hp] at h
    rw [if_neg (by simp),piecesOf_foldl (fun q hq => h q (List.mem_cons_of_mem _ hq)),
      piecesOf_piece (h piece List.mem_cons_self)]
    rfl

inductive Built : FPath → Prop
  | initWith (path : String) : Built (initWith path)
  | popFront {p : FPath} (h : Built p) : Built p.popFront
  | parent {p q : FPath} (h : Built p) (hq : p.parent = some q) : Built q
  | child {p q : FPath} (h : Built p) (hq : Built q) : Built (p.child q)
  | childFromString {p : FPath} (h : Built p) (childPath : String) :
    Built (p.childFromString childPath)
  | relativePathFrom {outer inner r : FPath} (ho : Built outer) (hi : Built inner)
    (hr : relativePathFrom outer inner = .ok r) : Built r

theorem Built.pieces {p : FPath} (h : Built p) : ∀ piece ∈ p.components, Piece piece := by
  induction h with
  | initWith path => exact fun piece hp => piece_of_mem_piecesOf hp
  | @popFront p _ ih =>
    rw [components_popFront]
    exact fun piece hp => ih piece (List.mem_of_mem_tail hp)
  | @parent p q _ hq ih =>
    have he := parent_eq p
    rw [hq,Option.map_some] at he
    split at he
    · cases he
    · rw [Option.some.inj he]
      exact fun piece hp => ih piece (List.mem_of_mem_dropLast hp)
  | child _ _ ih ih' =>
    rw [components_child]
    exact List.forall_mem_append.mpr ⟨ih,ih'⟩
  | childFromString _ s ih =>
    rw [components_childFromString]
    exact List.forall_mem_append.mpr ⟨ih,fun piece hp => piece_of_mem_piecesOf hp⟩
  | @relativePathFrom outer inner r _ _ hr _ ih =>
    have hs := relativePathFrom_spec outer inner
    rw [hr] at hs
    intro piece hp
    exact ih piece (hs ▸ List.mem_append_right _ hp)

/-- Any path the client makes is read back from each of its printed forms, and printing one
path behind another is going from the one to the other. -/
theorem Built.parse_print {p q : FPath} (hp : Built p) (hq : Built q) :
    (∀ trailingSlash,
      (FPath.initWith (p.toStringWithTrailingSlash trailingSlash)).isEqual p = true) ∧
    (FPath.initWith p.wireFormat).isEqual p = true ∧
    (FPath.initWith (p.toString ++ "/" ++ q.toString)).isEqual (p.child q) = true := by
  refine ⟨fun trailingSlash => ?_,?_,?_⟩
  · rw [isEqual_iff,components_initWith,piecesOf_toStringWithTrailingSlash hp.pieces]
  · rw [isEqual_iff,components_initWith,piecesOf_wireFormat hp.pieces]
  · rw [isEqual_iff,components_initWith,piecesOf_append,components_child,toString,toString,
      piecesOf_toStringWithTrailingSlash hp.pieces,piecesOf_toStringWithTrailingSlash hq.pieces]

theorem Built.parse_print_users :
    (FPath.initWith ((FPath.initWith "users//5/").toString ++ "/" ++
      ((FPath.initWith "x/exp").popFront).toString)).isEqual
        ((FPath.initWith "users//5/").child (FPath.initWith "x/exp").popFront) = true :=
  (Built.parse_print (.initWith "users//5/") (.popFront (.initWith "x/exp"))).2.2

/-- The relative path leads from the outer path to the inner one, and there is one exactly when
the outer path contains the inner one. -/
theorem relativePathFrom_iff (outer inner : FPath) :
    match relativePathFrom outer inner with
    | .ok relative => outer.contains inner = true ∧ (outer.child relative).isEqual inner = true
    | .error _ => outer.contains inner = false := by
  have hs := relativePathFrom_spec outer inner
  cases hr : relativePathFrom outer inner with
  | ok relative =>
    rw [hr] at hs
    exact ⟨(contains_iff _ _).mpr ⟨_,hs⟩,(isEqual_iff _ _).mpr hs⟩
  | error e =>
    rw [hr] at hs
    exact Bool.eq_false_iff.mpr (mt (contains_iff _ _).mp hs)

theorem compareSegments_eq (this other : List String) :
    compareSegments this other = List.compareLex compareKey this other := by
  induction this generalizing other with
  | nil => cases other <;> rfl
  | cons a this ih =>
    cases other with
    | nil => rfl
    | cons b other => rw [compareSegments,List.compareLex_cons_cons,ih]

instance : Std.TransCmp FPath.compare where
  eq_swap := by
    intro p q
    rw [compare,compare,compareSegments_eq,compareSegments_eq]
    exact Std.OrientedCmp.eq_swap
  isLE_trans := by
    intro p q r hpq hqr
    rw [compare,compareSegments_eq] at *
    exact Std.TransCmp.isLE_trans hpq hqr

end FPath

end GFLGO
