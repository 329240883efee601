import GFLGO.Enemies
import GFLGO.Registry

/-! What /enemies has to look like to stand for an enemy map. -/

set_option autoImplicit false

namespace GFLGO

section
variable {K : Type}

/-- The record of an enemy, field by field. -/
structure IsEnemy (enemy : Enemy K) (node : FNode K) : Prop where
  name : ∃ name, enemy.name = some name ∧ node.getImmediateChild "name" = .leaf (.string name)
  health : node.getImmediateChild "health" = .leaf (.double enemy.health)
  power : node.getImmediateChild "power" = .leaf (.double enemy.power)
  latitude : node.getImmediateChild "latitude" = .leaf (.double enemy.latitude)
  longitude : node.getImmediateChild "longitude" = .leaf (.double enemy.longitude)

/-- Every enemy of the map has its record under its identifier, and there are no
other keys. -/
structure EnemyTree (m : String → Option (Enemy K)) (enemies : FNode K) : Prop where
  keys : enemies.childKeys.Nodup
  mem_iff : ∀ id, id ∈ enemies.childKeys ↔ ∃ enemy, m id = some enemy
  stored : ∀ id enemy, m id = some enemy →
    enemy.identifier = id ∧ IsEnemy enemy (enemies.getImmediateChild id)

theorem EnemyTree.empty : EnemyTree (fun _ => none) (.empty : FNode K) :=
  { keys := List.nodup_nil
    mem_iff := fun id => by simp [PathTree.childKeys]
    stored := fun id enemy h => by contradiction }

theorem EnemyTree.remove {m : String → Option (Enemy K)} {store : FNode K}
    (h : EnemyTree m (store.getImmediateChild "enemies")) (id : String) :
    EnemyTree (Function.update m id none)
      ((applyWrite (removeValue ["enemies",id]) store).getImmediateChild "enemies") := by
  rw [removeValue,collection_applyWrite,PathTree.updateChild_nil]
  refine ⟨PathTree.nodup_childKeys_updateImmediateChild id _ h.keys,fun j => ?_,
    fun j enemy hm => ?_⟩
  · rw [PathTree.mem_childKeys_updateImmediateChild_empty,h.mem_iff]
    by_cases hj : j = id <;> simp [hj]
  · rw [Function.update_apply] at hm
    split at hm
    · contradiction
    · next hj =>
      rw [PathTree.getImmediateChild_updateImmediateChild_ne _ _ hj]
      exact h.stored j enemy hm

theorem getImmediateChild_drain_users {ws : List (Write K)}
    (hw : ∀ x ∈ ws, ∃ rest, x.path = "users" :: rest) (store : FNode K) :
    (drain ws store).getImmediateChild "enemies" = store.getImmediateChild "enemies" := by
  induction ws generalizing store with
  | nil => rfl
  | cons x ws ih =>
    obtain ⟨⟨rest,hpath⟩,hrest⟩ := List.forall_mem_cons.mp hw
    rw [drain_cons,ih hrest]
    obtain ⟨path,node⟩ := x
    obtain rfl : path = "users" :: rest := hpath
    exact collection_applyWrite_of_ne store rest node (by decide)

theorem keys_drain_below {key : String} {ws : List (Write K)}
    (hw : ∀ x ∈ ws, (∃ rest, x.path = "enemies" :: key :: rest) ∧ x.node.isEmpty = false)
    {store : FNode K} (hk : (enemyKeys store).Nodup) :
    (enemyKeys (drain ws store)).Nodup ∧
      ∀ id, id ∈ enemyKeys (drain ws store) ↔ (id = key ∧ ws ≠ []) ∨ id ∈ enemyKeys store := by
  induction ws generalizing store with
  | nil => exact ⟨hk,by simp⟩
  | cons x ws ih =>
    obtain ⟨⟨⟨rest,hpath⟩,hnode⟩,hrest⟩ := List.forall_mem_cons.mp hw
    have hnodup := nodup_enemyKeys_applyWrite (.enemies hpath) hk
    refine ⟨(ih hrest hnodup).1,fun id => ?_⟩
    rw [drain_cons,(ih hrest hnodup).2 id,mem_enemyKeys_applyWrite hpath hnode]
    simp only [ne_eq,reduceCtorEq,not_false_iff,and_true]
    tauto

theorem enemyWrites_stored {enemy : Enemy K} {name : String} (hn : enemy.name = some name) :
    ∀ x ∈ MapVC.enemyWrites enemy,
      (∃ rest, x.path = "enemies" :: enemy.identifier :: rest) ∧ x.node.isEmpty = false := by
  intro x hx
  refine ⟨enemyWrites_path enemy x hx,?_⟩
  simp only [MapVC.enemyWrites,hn,setOptional,Option.map_some,List.mem_cons,List.not_mem_nil,
    or_false] at hx
  rcases hx with rfl | rfl | rfl | rfl | rfl | rfl <;> rfl

theorem isEnemy_settle {enemy : Enemy K} {name : String} (hn : enemy.name = some name)
    (node : FNode K) :
    IsEnemy enemy (settle "enemies" enemy.identifier (MapVC.enemyWrites enemy) node) := by
  have hbelow : ∀ x ∈ MapVC.enemyWrites enemy,
      x.isBelow "enemies" enemy.identifier = true := fun x hx => by
    obtain ⟨rest,hpath⟩ := enemyWrites_path enemy x hx
    simp [Write.isBelow,hpath]
  rw [settle,List.filter_eq_self.mpr hbelow]
  simp only [MapVC.enemyWrites,hn,Option.map_some,setOptional,setValue,List.foldl_cons,
    List.foldl_nil,Write.inRecord,List.drop_succ_cons,List.drop_zero,PathTree.updateChild_nil,
    PathTree.updateChild_cons]
  constructor <;>
    simp [PathTree.getImmediateChild_updateImmediateChild,hn]

theorem EnemyTree.store {m : String → Option (Enemy K)} {store : FNode K}
    (h : EnemyTree m (store.getImmediateChild "enemies")) {enemy : Enemy K} {name : String}
    (hn : enemy.name = some name) :
    EnemyTree (Function.update m enemy.identifier (some enemy))
      ((drain (MapVC.enemyWrites enemy) store).getImmediateChild "enemies") := by
  obtain ⟨hnodup,hmem⟩ := keys_drain_below (enemyWrites_stored hn) h.keys
  have haddressed : ∀ x ∈ MapVC.enemyWrites enemy, x.Addressed := fun x hx => by
    obtain ⟨rest,hpath⟩ := enemyWrites_path enemy x hx
    exact ⟨_,_,rest,hpath⟩
  refine ⟨hnodup,fun id => ?_,fun id e hm => ?_⟩
  · refine (hmem id).trans ?_
    rw [enemyKeys,h.mem_iff,Function.update_apply]
    by_cases hid : id = enemy.identifier <;> simp [hid,MapVC.enemyWrites]
  · rw [← record_eq,record_drain haddressed]
    rw [Function.update_apply] at hm
    split at hm
    · next hid =>
      subst hid
      cases hm
      exact ⟨rfl,isEnemy_settle hn _⟩
    · next hid =>
      have hother : ∀ x ∈ MapVC.enemyWrites enemy, x.isBelow "enemies" id = false := by
        intro x hx
        obtain ⟨rest,hpath⟩ := enemyWrites_path enemy x hx
        simpa [Write.isBelow,hpath] using Ne.symm hid
      rw [settle_of_forall_ne hother,record_eq]
      exact h.stored id e hm

end

section
variable {K : Type} [Field K]

omit [Field K] in
theorem IsEnemy.fields {enemy : Enemy K} {node : FNode K} (h : IsEnemy enemy node) :
    EnemyFields node := by
  obtain ⟨name,_,hname⟩ := h.name
  exact ⟨⟨name,hname⟩,Or.inl ⟨_,h.latitude⟩,Or.inl ⟨_,h.longitude⟩,Or.inl ⟨_,h.health⟩,
    Or.inl ⟨_,h.power⟩⟩

theorem asDouble_of_leaf (reader : Reader) {field : String} {child : FNode K} {x : K}
    (h : child.getImmediateChild field = .leaf (.double x)) :
    asDouble reader field child = .ok x := by
  rw [asDouble,h]

theorem IsEnemy.decodes {enemy e : Enemy K} {id : String} {node : FNode K}
    (h : IsEnemy enemy node) (hid : enemy.identifier = id) (hd : Decodes (id,node) e) :
    e = enemy := by
  obtain ⟨name,hn,hname⟩ := h.name
  obtain ⟨name',hn',hname'⟩ := hd.name
  have hsame : name' = name := by simpa [hname] using hname'.symm
  have hlat := hd.latitude.symm.trans (asDouble_of_leaf _ h.latitude)
  have hlong := hd.longitude.symm.trans (asDouble_of_leaf _ h.longitude)
  have hhealth := hd.health.symm.trans (asDouble_of_leaf _ h.health)
  have hpower := hd.power.symm.trans (asDouble_of_leaf _ h.power)
  simp only [Except.ok.injEq] at hlat hlong hhealth hpower
  obtain ⟨identifier,ename,latitude,longitude,health,power⟩ := e
  have hident : identifier = id := hd.identifier
  simp only at hn' hlat hlong hhealth hpower
  subst hident hid hn' hsame hlat hlong hhealth hpower
  simp [← hn]

variable [LinearOrder K]

theorem IsEnemy.isNear {enemy : Enemy K} {node : FNode K} (h : IsEnemy enemy node)
    (p : Platform K) (radius : K) (c : Coordinate K) :
    GFLGO.isNear p radius c node =
      decide (p.distance ⟨enemy.latitude,enemy.longitude⟩ c ≤ radius) :=
  isNear_of_ok p radius c (asDouble_of_leaf .findEnemiesAroundUser h.latitude)
    (asDouble_of_leaf .findEnemiesAroundUser h.longitude)

section
variable {α β : Type} {R : α → β → Prop} {as : List α} {bs : List β}

theorem exists_of_mem_left (h : List.Forall₂ R as bs) {a : α} (ha : a ∈ as) :
    ∃ b ∈ bs, R a b := by
  induction h with
  | nil => contradiction
  | cons hr _ ih =>
    rcases List.mem_cons.mp ha with rfl | ha
    · exact ⟨_,List.mem_cons_self,hr⟩
    · obtain ⟨b,hb,hab⟩ := ih ha
      exact ⟨b,List.mem_cons_of_mem _ hb,hab⟩

theorem exists_of_mem_right (h : List.Forall₂ R as bs) {b : β} (hb : b ∈ bs) :
    ∃ a ∈ as, R a b :=
  exists_of_mem_left h.flip hb

end

variable {m : String → Option (Enemy K)} {enemies : FNode K}

omit [Field K] [LinearOrder K] in
theorem EnemyTree.child (h : EnemyTree m enemies) {child : String × FNode K}
    (hc : child ∈ enemies.children) :
    ∃ enemy, m child.1 = some enemy ∧ enemy.identifier = child.1 ∧ IsEnemy enemy child.2 := by
  obtain ⟨enemy,hm⟩ := (h.mem_iff child.1).mp (List.mem_map_of_mem hc)
  obtain ⟨hid,hstored⟩ := h.stored _ _ hm
  rw [PathTree.getImmediateChild_of_mem h.keys hc] at hstored
  exact ⟨enemy,hm,hid,hstored⟩

omit [Field K] [LinearOrder K] in
theorem EnemyTree.exists_child (h : EnemyTree m enemies) {enemy : Enemy K}
    (hm : m enemy.identifier = some enemy) :
    ∃ child ∈ enemies.children, child.1 = enemy.identifier ∧ IsEnemy enemy child.2 := by
  obtain ⟨child,hc,hkey⟩ := List.mem_map.mp ((h.mem_iff _).mpr ⟨enemy,hm⟩)
  obtain ⟨enemy',hm',_,hstored⟩ := h.child hc
  rw [hkey,hm,Option.some.injEq] at hm'
  subst hm'
  exact ⟨child,hc,hkey,hstored⟩

/-- The scan finds the enemies of the map that are near, each once. -/
theorem EnemyTree.findEnemiesAroundUser (h : EnemyTree m enemies) (p : Platform K)
    (c : Coordinate K) (randomName : String) :
    ∃ found, MapVC.findEnemiesAroundUser p (some c) randomName enemies.children = .ok found ∧
      (found.map Enemy.identifier).Nodup ∧
      ∀ enemy, enemy ∈ found ↔ m enemy.identifier = some enemy ∧
        p.distance ⟨enemy.latitude,enemy.longitude⟩ c ≤ 150 := by
  have hfields : ∀ child ∈ enemies.children, EnemyFields child.2 := fun child hc => by
    obtain ⟨_,_,_,hstored⟩ := h.child hc
    exact hstored.fields
  obtain ⟨found,hok⟩ : ∃ found,
      MapVC.findEnemiesAroundUser p (some c) randomName enemies.children = .ok found :=
    findEnemiesAroundUser_of_fields hfields
  have hdecodes := (findEnemiesAroundUser_eq_ok hok).2
  have hnear : ∀ child, child ∈ nearChildren p 150 (some c) enemies.children ↔
      child ∈ enemies.children ∧ GFLGO.isNear p 150 c child.2 = true := fun child => by
    simp [nearChildren]
  refine ⟨found,hok,?_,fun enemy => ?_⟩
  · rw [identifiers_of_decodes hdecodes]
    exact nodup_nearChildren h.keys
  constructor
  · intro he
    obtain ⟨child,hc,hdec⟩ := exists_of_mem_right hdecodes he
    obtain ⟨hc,hd⟩ := (hnear child).mp hc
    obtain ⟨enemy',hm,hid,hstored⟩ := h.child hc
    obtain rfl := hstored.decodes hid hdec
    rw [hstored.isNear p 150 c] at hd
    exact ⟨hid ▸ hm,of_decide_eq_true hd⟩
  · intro he
    obtain ⟨hm,hd⟩ := he
    obtain ⟨child,hc,hkey,hstored⟩ := h.exists_child hm
    have hin := (hnear child).mpr ⟨hc,by rw [hstored.isNear p 150 c]; exact decide_eq_true hd⟩
    obtain ⟨e,he,hdec⟩ := exists_of_mem_left hdecodes hin
    obtain rfl := hstored.decodes hkey.symm hdec
    exact he

end

end GFLGO
