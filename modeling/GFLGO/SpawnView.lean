import Mathlib.Analysis.Complex.Norm
import GFLGO.SpawnArea
import GFLGO.EnemyStore

/-!
Where a new enemy can be: whether its coordinates are valid, and whether the
player sees it. The map around the player is flat, with one scale for the
latitude and one, shrunk by the cosine of the latitude, for the longitude.
-/

set_option autoImplicit false

namespace GFLGO

structure Coordinate.Valid (c : Coordinate ℝ) : Prop where
  latitude : |c.latitude| ≤ 90
  longitude : |c.longitude| ≤ 180

noncomputable def realPlatform (distance : Coordinate ℝ → Coordinate ℝ → ℝ)
    (string : ℝ → String) : Platform ℝ :=
  { distance, cos := Real.cos, pi := Real.pi, string }

/-- The drawn coordinate is valid, and so is that of the enemy that is shown
and handed to the callback that stores it. -/
structure SpawnsValid (p : Platform ℝ) (pos : Coordinate ℝ) (d : Draw ℝ) : Prop where
  drawn : (MapVC.getRandomCoordinateAroundUser p d pos).Valid
  spawned : ∀ (m : MapVC ℝ) (r : MapReaction ℝ), m.userLocation = some pos →
    m.spawnEnemy p d = .ok r → ∃ enemy, r.reads = [.addEnemyToFirebase enemy] ∧
      r.locals.enemyAnnotations = m.enemyAnnotations ++ [enemy] ∧
      Coordinate.Valid ⟨enemy.latitude,enemy.longitude⟩

/-- The spawn square reaches neither a pole nor the antimeridian. -/
structure SquareFits (pos : Coordinate ℝ) : Prop where
  latitude : |pos.latitude| + 100 * 0.00000900776 ≤ 90
  longitude : |pos.longitude| +
    100 * (0.00000900776 / Real.cos (Real.pi * pos.latitude / 180)) ≤ 180

theorem spawnsValid_of_valid {p : Platform ℝ} {pos : Coordinate ℝ} {d : Draw ℝ}
    (h : (MapVC.getRandomCoordinateAroundUser p d pos).Valid) : SpawnsValid p pos d := by
  refine ⟨h,fun m r hm hr => ?_⟩
  obtain ⟨enemy,hs⟩ := MapVC.spawn_of_ok hr
  obtain ⟨location,hloc,hplaced⟩ := hs.placed
  obtain rfl : pos = location := Option.some.inj (hm.symm.trans hloc)
  exact ⟨enemy,hs.reads,by rw [hs.locals],hplaced ▸ h⟩

theorem forall_abs_add_le_iff {a b scale reach : ℝ} (hs : 0 ≤ scale) (hr : 0 ≤ reach) :
    (∀ x, |x| ≤ reach → |a + x * scale| ≤ b) ↔ |a| + reach * scale ≤ b := by
  have hnonneg : 0 ≤ reach * scale := mul_nonneg hr hs
  constructor
  · intro h
    rcases le_total 0 a with ha | ha
    · have hpos := h reach (abs_of_nonneg hr).le
      rwa [abs_of_nonneg (add_nonneg ha hnonneg),← abs_of_nonneg ha] at hpos
    · have hneg := h (-reach) (by rw [abs_neg]; exact (abs_of_nonneg hr).le)
      rw [neg_mul,abs_of_nonpos (by linarith)] at hneg
      rw [abs_of_nonpos ha]
      linarith
  · intro h x hx
    have hmove : |x * scale| ≤ reach * scale := by
      rw [abs_mul,abs_of_nonneg hs]
      exact mul_le_mul_of_nonneg_right hx hs
    exact (abs_add_le a _).trans (by linarith)

noncomputable def offsetDraw (x y : ℝ) : Draw ℝ :=
  { randomChangeX := x, randomChangeY := y, random2 := 0, time := 0, randomName := "" }

section
variable {distance : Coordinate ℝ → Coordinate ℝ → ℝ} {string : ℝ → String} {pos : Coordinate ℝ}

theorem getRandomCoordinate_realPlatform (d : Draw ℝ) :
    MapVC.getRandomCoordinateAroundUser (realPlatform distance string) d pos =
      { latitude := pos.latitude + d.randomChangeY * 0.00000900776
        longitude := pos.longitude + d.randomChangeX *
          (0.00000900776 / Real.cos (Real.pi * pos.latitude / 180)) } := by
  simp only [MapVC.getRandomCoordinateAroundUser,realPlatform,mul_div_assoc]

theorem inRange_offsetDraw {x y : ℝ} (hx : |x| ≤ 100) (hy : |y| ≤ 100) :
    (offsetDraw x y).InRange := ⟨hx,hy⟩

/-- Every draw gives a valid coordinate exactly when the square fits. -/
theorem spawnsValid_iff_squareFits (hlat : |pos.latitude| < 90) :
    (∀ d : Draw ℝ, d.InRange → SpawnsValid (realPlatform distance string) pos d) ↔
      SquareFits pos := by
  have hcos := cos_latitude_pos hlat
  have hscale : (0 : ℝ) ≤ 0.00000900776 / Real.cos (Real.pi * pos.latitude / 180) := by
    positivity
  constructor
  · intro h
    have hzero : |(0 : ℝ)| ≤ 100 := by norm_num
    constructor
    · refine (forall_abs_add_le_iff (by norm_num) (by norm_num)).mp (fun y hy => ?_)
      have hvalid := (h _ (inRange_offsetDraw hzero hy)).drawn.latitude
      rwa [getRandomCoordinate_realPlatform] at hvalid
    · refine (forall_abs_add_le_iff hscale (by norm_num)).mp (fun x hx => ?_)
      have hvalid := (h _ (inRange_offsetDraw hx hzero)).drawn.longitude
      rwa [getRandomCoordinate_realPlatform] at hvalid
  · intro h d hd
    apply spawnsValid_of_valid
    rw [getRandomCoordinate_realPlatform]
    constructor
    · exact (forall_abs_add_le_iff (by norm_num) (by norm_num)).mpr h.latitude _ hd.y
    · exact (forall_abs_add_le_iff hscale (by norm_num)).mpr h.longitude _ hd.x

end

theorem cos_equator : Real.cos (Real.pi * 0 / 180) = 1 := by
  rw [mul_zero,zero_div,Real.cos_zero]

/-- On the equator, far from the antimeridian. -/
theorem spawnsValid_equator :
    SpawnsValid (flatPlatform (fun _ => "0.0")) ⟨0,0⟩ (offsetDraw 100 (-100)) :=
  (spawnsValid_iff_squareFits (by norm_num)).mpr
    ⟨by norm_num,by simp only [cos_equator]; norm_num⟩ _
    (inRange_offsetDraw (by norm_num) (by norm_num))

/-- A user on the antimeridian, and an enemy to the east. -/
theorem not_spawnsValid : ¬ ∀ (pos : Coordinate ℝ) (d : Draw ℝ), |pos.latitude| < 90 →
    |pos.longitude| ≤ 180 → d.InRange → SpawnsValid (flatPlatform (fun _ => "0.0")) pos d := by
  intro h
  have hrange : (offsetDraw 100 0).InRange := inRange_offsetDraw (by norm_num) (by norm_num)
  have hvalid := (h ⟨0,180⟩ (offsetDraw 100 0) (by norm_num) (by norm_num) hrange).drawn.longitude
  have hlong : (MapVC.getRandomCoordinateAroundUser (flatPlatform (fun _ => "0.0"))
      (offsetDraw 100 0) ⟨0,180⟩).longitude = 180 + 100 * (0.00000900776 / 1) := by
    rw [← cos_equator]
    exact congrArg Coordinate.longitude (getRandomCoordinate_realPlatform _)
  rw [hlong,abs_of_pos (by norm_num)] at hvalid
  norm_num at hvalid

/-- The flat map around one latitude, in metres. -/
noncomputable def localPlatform (latitude : ℝ) (string : ℝ → String) : Platform ℝ :=
  realPlatform (fun a b =>
    √(((a.latitude - b.latitude) / 0.00000900776) ^ 2 +
      (Real.cos (Real.pi * latitude / 180.0) * (a.longitude - b.longitude) /
        0.00000900776) ^ 2)) string

/-- The point of a coordinate on the flat map. -/
noncomputable def chart (latitude : ℝ) (c : Coordinate ℝ) : ℂ :=
  ⟨c.latitude / 0.00000900776,
    Real.cos (Real.pi * latitude / 180.0) * c.longitude / 0.00000900776⟩

section
variable {latitude : ℝ} {string : ℝ → String} {pos : Coordinate ℝ}

theorem distance_triangle (latitude : ℝ) (string : ℝ → String) (a b c : Coordinate ℝ) :
    (localPlatform latitude string).distance a c ≤
      (localPlatform latitude string).distance a b +
        (localPlatform latitude string).distance c b := by
  have hdist (x y : Coordinate ℝ) : (localPlatform latitude string).distance x y =
      dist (chart latitude x) (chart latitude y) := by
    rw [Complex.dist_eq_re_im]
    simp only [localPlatform,realPlatform,chart]
    congr 3
    · ring
    · ring
  rw [hdist,hdist,hdist]
  exact dist_triangle_right _ _ _

/-- An enemy in the square around the player, seen from wherever the player has
moved to. -/
structure InView (string : ℝ → String) (pos : Coordinate ℝ) (enemy : Enemy ℝ) : Prop where
  south_north : |(enemy.latitude - pos.latitude) / 0.00000900776| ≤ 100
  west_east : |Real.cos (Real.pi * pos.latitude / 180) * (enemy.longitude - pos.longitude) /
    0.00000900776| ≤ 100
  distance : (localPlatform pos.latitude string).distance ⟨enemy.latitude,enemy.longitude⟩ pos ≤
    100 * √2
  accepted : ∀ pos', (localPlatform pos.latitude string).distance pos' pos ≤ 8.5 →
    (localPlatform pos.latitude string).distance ⟨enemy.latitude,enemy.longitude⟩ pos' ≤ 150
  found : ∀ pos', (localPlatform pos.latitude string).distance pos' pos ≤ 8.5 →
    ∀ (stored : String → Option (Enemy ℝ)) (enemies : FNode ℝ) (randomName : String),
      EnemyTree stored enemies → stored enemy.identifier = some enemy →
      ∃ found, MapVC.findEnemiesAroundUser (localPlatform pos.latitude string) (some pos')
        randomName enemies.children = .ok found ∧ enemy ∈ found

theorem hundred_sqrt_two_le : 100 * √2 ≤ (141.5 : ℝ) := by
  have h : √2 ≤ (1.415 : ℝ) := Real.sqrt_le_iff.mpr ⟨by norm_num,by norm_num⟩
  linarith

theorem distance_le_of_inRange (string : ℝ → String) (hpos : |pos.latitude| < 90) {d : Draw ℝ}
    (hd : d.InRange) :
    (localPlatform pos.latitude string).distance
      (MapVC.getRandomCoordinateAroundUser (flatPlatform string) d pos) pos ≤ 100 * √2 := by
  have hdist : (localPlatform pos.latitude string).distance
      (MapVC.getRandomCoordinateAroundUser (flatPlatform string) d pos) pos =
        √(d.randomChangeY ^ 2 + d.randomChangeX ^ 2) := distance_getRandomCoordinate hpos d
  have hx := sq_le_sq' (abs_le.mp hd.x).1 (abs_le.mp hd.x).2
  have hy := sq_le_sq' (abs_le.mp hd.y).1 (abs_le.mp hd.y).2
  rw [hdist,Real.sqrt_le_iff,mul_pow,Real.sq_sqrt (by norm_num)]
  constructor
  · positivity
  · linarith

/-- Every spawn puts an enemy in view, on the map and into the callback that stores it. -/
theorem inView_of_spawn (hpos : |pos.latitude| < 90) {d : Draw ℝ} (hd : d.InRange)
    {m : MapVC ℝ} (hm : m.userLocation = some pos) : ∃ (enemy : Enemy ℝ) (r : MapReaction ℝ),
      m.spawnEnemy (localPlatform pos.latitude string) d = .ok r ∧
      r.reads = [.addEnemyToFirebase enemy] ∧
      r.locals.enemyAnnotations = m.enemyAnnotations ++ [enemy] ∧ InView string pos enemy := by
  obtain ⟨r,hr⟩ : ∃ r, m.spawnEnemy (localPlatform pos.latitude string) d = .ok r := by
    simp [MapVC.spawnEnemy,hm,bind,Except.bind]
  obtain ⟨enemy,hs⟩ := MapVC.spawn_of_ok hr
  refine ⟨enemy,r,hr,hs.reads,by rw [hs.locals],?_⟩
  obtain ⟨location,hloc,hplaced⟩ := hs.placed
  obtain rfl : pos = location := Option.some.inj (hm.symm.trans hloc)
  have hflat : (⟨enemy.latitude,enemy.longitude⟩ : Coordinate ℝ) =
      MapVC.getRandomCoordinateAroundUser (flatPlatform string) d pos := hplaced
  obtain ⟨hlat,hlong⟩ := offsets_getRandomCoordinate string hpos d
  have hdist := distance_le_of_inRange string hpos hd
  rw [← hflat] at hlat hlong hdist
  have haccepted : ∀ pos', (localPlatform pos.latitude string).distance pos' pos ≤ 8.5 →
      (localPlatform pos.latitude string).distance ⟨enemy.latitude,enemy.longitude⟩ pos' ≤ 150 := by
    intro pos' hmoved
    have htriangle := distance_triangle pos.latitude string
      ⟨enemy.latitude,enemy.longitude⟩ pos pos'
    have hsqrt := hundred_sqrt_two_le
    linarith
  refine ⟨by rw [hlat]; exact hd.y,by rw [hlong]; exact hd.x,hdist,haccepted,?_⟩
  intro pos' hmoved stored enemies randomName htree hstored
  obtain ⟨found,hok,_,hmem⟩ := htree.findEnemiesAroundUser
    (localPlatform pos.latitude string) pos' randomName
  exact ⟨found,hok,(hmem enemy).mpr ⟨hstored,haccepted pos' hmoved⟩⟩

/-- The corner of the square. -/
theorem inView_corner : ∃ (enemy : Enemy ℝ) (r : MapReaction ℝ),
    annOnMap.spawnEnemy (localPlatform origin.latitude wholeSeconds) (cornerDraw 0) = .ok r ∧
    r.reads = [.addEnemyToFirebase enemy] ∧
    r.locals.enemyAnnotations = annOnMap.enemyAnnotations ++ [enemy] ∧
    InView wholeSeconds origin enemy :=
  inView_of_spawn (by norm_num [origin]) (inRange_cornerDraw 0) rfl

end

end GFLGO
