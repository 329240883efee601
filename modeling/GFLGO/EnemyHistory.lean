import GFLGO.EnemyStore
import GFLGO.Experience

/-!
Spawns and defeats one after another. The record tree of /enemies stands for
the enemies that were spawned and not defeated since.
-/

set_option autoImplicit false

namespace GFLGO

open Runs Async Registry

section
variable {K : Type}

def Read.Plain (q : Read K) : Prop :=
  q.enemy = none ∧ ∀ tab, q ≠ .map tab .getNumberOfEnemiesAroundUser

/-- What is left of a spawn: one read, whose callback stores the enemy. -/
structure Stores (enemy : Enemy K) (r : DeviceReaction K) : Prop where
  name : ∃ name, enemy.name = some name
  reads : ∃ tab, r.reads = [.map tab (.addEnemyToFirebase enemy)]
  writes : r.writes = []

theorem Stores.asked {enemy : Enemy K} {r : DeviceReaction K} (h : Stores enemy r) :
    GFLGO.asked (.ok r) = some enemy := by
  obtain ⟨tab,hreads⟩ := h.reads
  exact asked_of_reads hreads

theorem asked_of_plain {r : DeviceReaction K} (h : ∀ q ∈ r.reads, q.enemy = none) :
    asked (.ok r) = none :=
  List.findSome?_eq_none_iff.mpr h

section
variable [Field K] [LinearOrder K] {p : Platform K} {d : Device K}

omit [LinearOrder K] in
theorem MapVC.Spawn.stores {draw : Draw K} {tab : Nat} {t : TabBarVC K} {enemy : Enemy K}
    {r : MapReaction K} (h : Spawn p draw t.map enemy r) : Stores enemy (d.ofMap tab t r) :=
  ⟨⟨_,h.name⟩,⟨tab,by simp [Device.ofMap,h.reads]⟩,by simp [Device.ofMap,h.writes]⟩

theorem EventOutcome.spawning {e : Event K} {r : DeviceReaction K} (h : EventOutcome p d e r) :
    (∃ enemy, Stores enemy r) ∨ (∃ tab, r.reads = [.map tab .getNumberOfEnemiesAroundUser]) ∨
      ∀ q ∈ r.reads, q.Plain := by
  cases h with
  | @map tab t e r ht hr =>
    by_cases htick : e = .timerTick
    · subst htick
      cases hr
      exact Or.inr (Or.inl ⟨tab,rfl⟩)
    · rcases MapVC.onEvent_spawn hr with ⟨draw,enemy,_,hs⟩ | ⟨_,hno⟩
      · exact Or.inl ⟨enemy,hs.stores⟩
      · refine Or.inr (Or.inr (fun q hq => ?_))
        obtain ⟨q',hq',rfl⟩ := List.mem_map.mp hq
        refine ⟨hno.reads q' hq',fun tab' he => htick ?_⟩
        obtain ⟨_,rfl⟩ := (Read.map.injEq ..).mp he
        exact MapVC.tick_of_count hr hq'
  | createAccountAction hv => exact Or.inr (Or.inr (by simp [Read.Plain,Read.enemy]))
  | loginAction => exact Or.inr (Or.inr (by simp [Read.Plain,Read.enemy]))
  | changePasswordAction ht hn => exact Or.inr (Or.inr (by simp [Read.Plain,Read.enemy]))
  | _ => exact Or.inr (Or.inr (by simp [Device.idle,Device.ofScene]))

variable [FloorRing K]

theorem ReadOutcome.plain {snapshot : FNode K} {draw : Draw K} {q : Read K}
    {r : DeviceReaction K} (h : ReadOutcome p snapshot draw d q r) (hq : q.Plain) :
    (∀ q' ∈ r.reads, q'.Plain) ∧ ∀ x ∈ r.writes, ∃ rest, x.path = "users" :: rest := by
  constructor
  · intro q' hq'
    cases h with
    | @map tab t q r ht hr =>
      rcases MapVC.onRead_spawn hr with ⟨rfl,_⟩ | hfill
      · exact absurd rfl (hq.2 tab)
      · simp [Device.ofMap,hfill.reads] at hq'
    | userIsNew hv hc =>
      rw [List.mem_singleton.mp hq']
      exact ⟨rfl,by simp⟩
    | _ => simp [Device.idle] at hq'
  · intro x hx
    rcases h.placed x hx with hp | ⟨enemy,he,_⟩
    · exact hp
    · rw [hq.1] at he
      contradiction

theorem ReadOutcome.count {snapshot : FNode K} {draw : Draw K} {tab : Nat}
    {r : DeviceReaction K}
    (h : ReadOutcome p snapshot draw d (.map tab .getNumberOfEnemiesAroundUser) r) :
    (∃ enemy, Stores enemy r) ∨ (r.reads = [] ∧ r.writes = []) := by
  cases h with
  | idle => exact Or.inr ⟨rfl,rfl⟩
  | map ht hr =>
    rcases MapVC.onRead_count hr with ⟨_,enemy,hs⟩ | ⟨_,rfl⟩
    · exact Or.inl ⟨enemy,hs.stores⟩
    · exact Or.inr ⟨rfl,rfl⟩

/-- What a step does to the enemy map: a spawn inserts, a defeat erases. -/
def enemyChange (p : Platform K) (l : Label K) (w : World K) :
    Option (Change String (Enemy K)) :=
  match spawned p l w with
  | some enemy => some (.insert enemy)
  | none => (blow l w).map (fun struck => .erase struck.2.enemy.identifier)

end

/-- What the client still writes, the enemies it has yet to store included. -/
def outbox (cl : Client K) : List (Write K) :=
  cl.writes ++ ((cl.reads.map Pending.read).filterMap Read.enemy).flatMap MapVC.enemyWrites

/-- A client whose callbacks cannot change the order of what it writes. -/
def InOrder (cl : Client K) : Prop :=
  (∀ rd ∈ cl.reads, rd.read.Plain) ∨ ((∃ rd, cl.reads = [rd]) ∧ cl.writes = [])

/-- Only one client has something under way, and it ends in the enemy map. -/
structure Settling (m : String → Option (Enemy K)) (c : Nat) (w : World K) : Prop where
  others : ∀ c', c' ≠ c → (w.clients c').Quiet
  order : InOrder (w.clients c)
  tree : EnemyTree m ((drain (outbox (w.clients c)) w.store).getImmediateChild "enemies")

theorem outbox_eq_writes {cl : Client K} (h : ∀ rd ∈ cl.reads, rd.read.enemy = none) :
    outbox cl = cl.writes := by
  have hnone : (cl.reads.map Pending.read).filterMap Read.enemy = [] := by
    rw [List.filterMap_eq_nil_iff]
    intro q hq
    obtain ⟨rd,hrd,rfl⟩ := List.mem_map.mp hq
    exact h rd hrd
  rw [outbox,hnone,List.flatMap_nil,List.append_nil]

theorem Settling.of_quiet {m : String → Option (Enemy K)} {w : World K} (hq : w.Quiet)
    (h : EnemyTree m (w.store.getImmediateChild "enemies")) (c : Nat) : Settling m c w where
  others := fun c' _ => hq c'
  order := Or.inl (by simp [(hq c).1])
  tree := by
    rw [outbox_eq_writes (by simp [(hq c).1]),(hq c).2]
    exact h

theorem Settling.tree_of_quiet {m : String → Option (Enemy K)} {c : Nat} {w : World K}
    (h : Settling m c w) (hq : w.Quiet) : EnemyTree m (w.store.getImmediateChild "enemies") := by
  have htree := h.tree
  rwa [outbox_eq_writes (by simp [(hq c).1]),(hq c).2] at htree

theorem Settling.only {m : String → Option (Enemy K)} {c c' i : Nat} {w : World K}
    {rd : Pending (Read K) (FNode K)} (h : Settling m c w)
    (hr : (w.clients c').reads[i]? = some rd) : c' = c := by
  by_contra hc
  simp [(h.others c' hc).1] at hr

theorem Settling.react {m : String → Option (Enemy K)} {c : Nat} {w : World K} {cl : Client K}
    {r : Except Trap (DeviceReaction K)} (ho : ∀ c', c' ≠ c → (w.clients c').Quiet)
    (horder : InOrder (cl.absorb r))
    (htree : EnemyTree m ((drain (outbox (cl.absorb r)) w.store).getImmediateChild "enemies")) :
    Settling m c (w.react c cl r) := by
  refine ⟨fun c' hc => ?_,?_,?_⟩
  · rw [react_clients_ne w c _ _ hc]
    exact ho c' hc
  · rw [react_clients_self]
    exact horder
  · rw [react_clients_self]
    exact htree

theorem Settling.error {m : String → Option (Enemy K)} {c : Nat} {w : World K} {cl : Client K}
    {t : Trap} (ho : ∀ c', c' ≠ c → (w.clients c').Quiet)
    (htree : EnemyTree m ((drain cl.writes w.store).getImmediateChild "enemies")) :
    Settling m c (w.react c cl (.error t : Except Trap (DeviceReaction K))) := by
  refine Settling.react ho (Or.inl (by simp [Client.absorb])) ?_
  rw [outbox_eq_writes (by simp [Client.absorb])]
  exact htree

theorem Settling.tree_of_count {m : String → Option (Enemy K)} {c c₀ i tab : Nat} {w : World K}
    {s : Option (FNode K)} (h : Settling m c₀ w)
    (hr : (w.clients c).reads[i]? = some ⟨.map tab .getNumberOfEnemiesAroundUser,s⟩) :
    EnemyTree m (w.store.getImmediateChild "enemies") := by
  obtain rfl := h.only hr
  have hmem := List.mem_of_getElem? hr
  have htree := h.tree
  rcases h.order with hplain | ⟨⟨rd,hreads⟩,hwrites⟩
  · exact absurd rfl ((hplain _ hmem).2 tab)
  · rw [hreads,List.mem_singleton] at hmem
    rwa [outbox_eq_writes (by simp [hreads,← hmem,Read.enemy,MapRead.enemy]),hwrites] at htree

section
variable [Field K] [LinearOrder K] [FloorRing K] {p : Platform K}
  {ops : List (Change String (Enemy K))} {c : Nat} {w w' : World K}

theorem enemyChange_eq_insert {l : Label K} {enemy : Enemy K}
    (h : spawned p l w = some enemy) : enemyChange p l w = some (.insert enemy) := by
  simp [enemyChange,h]

theorem enemyChange_eq_none {l : Label K} (h : spawned p l w = none) (hb : blow l w = none) :
    enemyChange p l w = none := by
  simp [enemyChange,h,hb]

section
variable {cl : Client K} {r : DeviceReaction K}

omit [Field K] [LinearOrder K] [FloorRing K] in
theorem outbox_absorb (hr : cl.reads = []) (hw : cl.writes = [])
    (hn : ∀ q ∈ r.reads, q.enemy = none) : outbox (cl.absorb (.ok r)) = r.writes := by
  rw [outbox_eq_writes]
  · simp [Client.absorb,hw]
  · intro rd hrd
    rcases mem_reads_absorb.mp hrd with hold | ⟨q,hq,rfl⟩
    · simp [hr] at hold
    · exact hn q hq

omit [Field K] [LinearOrder K] [FloorRing K] in
theorem inOrder_absorb (hr : cl.reads = []) (hw : cl.writes = []) (hrw : r.writes = [])
    (hp : (∃ tab, r.reads = [.map tab .getNumberOfEnemiesAroundUser]) ∨ ∀ q ∈ r.reads, q.Plain) :
    InOrder (cl.absorb (.ok r)) := by
  rcases hp with ⟨tab,hcount⟩ | hplain
  · exact Or.inr ⟨⟨_,by simp [Client.absorb,hr,hcount]; rfl⟩,by simp [Client.absorb,hw,hrw]⟩
  · refine Or.inl (fun rd hrd => ?_)
    rcases mem_reads_absorb.mp hrd with hold | ⟨q,hq,rfl⟩
    · simp [hr] at hold
    · exact hplain q hq

omit [Field K] [LinearOrder K] [FloorRing K] in
/-- A spawn inserts the enemy, although none of its writes is issued yet. -/
theorem Settling.stores {enemy : Enemy K} (ho : ∀ c', c' ≠ c → (w.clients c').Quiet)
    (hr : cl.reads = []) (hw : cl.writes = []) (hs : Stores enemy r)
    (hm : EnemyTree (after Enemy.identifier ops) (w.store.getImmediateChild "enemies")) :
    Settling (after Enemy.identifier (ops ++ [.insert enemy])) c (w.react c cl (.ok r)) := by
  obtain ⟨tab,hreads⟩ := hs.reads
  obtain ⟨name,hn⟩ := hs.name
  refine Settling.react ho (Or.inr ?_) ?_
  · exact ⟨⟨_,by simp [Client.absorb,hr,hreads]; rfl⟩,by simp [Client.absorb,hw,hs.writes]⟩
  · have hbox : outbox (cl.absorb (.ok r)) = MapVC.enemyWrites enemy := by
      simp [outbox,Client.absorb,hr,hw,hreads,hs.writes,Read.enemy,MapRead.enemy]
    rw [hbox,after_insert]
    exact hm.store hn

omit [Field K] [LinearOrder K] [FloorRing K] in
theorem Settling.defeat {user : User K} {s : GameScene K}
    (ho : ∀ c', c' ≠ c → (w.clients c').Quiet) (hr : cl.reads = []) (hw : cl.writes = [])
    (hrr : r.reads = []) (hrw : r.writes = s.defeatWrites user)
    (hm : EnemyTree (after Enemy.identifier ops) (w.store.getImmediateChild "enemies")) :
    Settling (after Enemy.identifier (ops ++ [.erase s.enemy.identifier])) c
      (w.react c cl (.ok r)) := by
  refine Settling.react ho (Or.inl (by simp [Client.absorb,hr,hrr])) ?_
  rw [outbox_absorb hr hw (by simp [hrr]),hrw,GameScene.defeatWrites,drain_cons,
    getImmediateChild_drain_users,after_erase]
  · exact hm.remove s.enemy.identifier
  · intro x hx
    rw [List.mem_singleton.mp hx]
    exact ⟨_,rfl⟩

end

theorem Settling.event {e : Event K} (hq : w.Quiet)
    (hm : EnemyTree (after Enemy.identifier ops) (w.store.getImmediateChild "enemies"))
    (h : step p (.event c e) w = some w') :
    Settling (after Enemy.identifier (ops ++ (enemyChange p (.event c e) w).toList)) c w' := by
  obtain ⟨_,rfl⟩ := step_event h
  obtain ⟨hcr,hcw⟩ := hq c
  have hothers : ∀ c', c' ≠ c → (w.clients c').Quiet := fun c' _ => hq c'
  have hspawned : spawned p (.event c e) w = asked ((w.clients c).locals.onEvent p e) := rfl
  have hblow : blow (.event c e) w = (w.clients c).locals.blow e := rfl
  have hevent : (program p).onEvent e (w.clients c).locals = (w.clients c).locals.onEvent p e := rfl
  rw [hevent]
  cases hr : (w.clients c).locals.onEvent p e with
  | error t =>
    have hnone : (w.clients c).locals.blow e = none := by
      by_contra hb
      obtain ⟨⟨user,s⟩,hb⟩ := Option.ne_none_iff_exists'.mp hb
      obtain ⟨r,hok,_⟩ := exists_blow (p := p) hb
      rw [hr] at hok
      contradiction
    rw [enemyChange_eq_none (by rw [hspawned,hr]; rfl) (hblow.trans hnone),Option.toList_none,
      List.append_nil]
    refine Settling.error hothers ?_
    rw [hcw]
    exact hm
  | ok r =>
    rcases (onEvent_outcome hr).spawning with ⟨enemy,hs⟩ | hplain
    · rw [enemyChange_eq_insert (by rw [hspawned,hr,hs.asked])]
      exact Settling.stores hothers hcr hcw hs hm
    · have hnone : ∀ q ∈ r.reads, q.enemy = none := by
        rcases hplain with ⟨tab,hcount⟩ | hplain
        · simp [hcount,Read.enemy,MapRead.enemy]
        · exact fun q hq' => (hplain q hq').1
      have hasked : spawned p (.event c e) w = none := by
        rw [hspawned,hr,asked_of_plain hnone]
      cases hb : (w.clients c).locals.blow e with
      | none =>
        have hno := (onEvent_outcome hr).noBlow hb
        rw [enemyChange_eq_none hasked (hblow.trans hb),Option.toList_none,List.append_nil]
        refine Settling.react hothers (inOrder_absorb hcr hcw hno.writes hplain) ?_
        rw [outbox_absorb hcr hcw hnone,hno.writes]
        exact hm
      | some struck =>
        obtain ⟨user,s⟩ := struck
        have hdown := blow_of_onEvent hr hb
        have hchange : enemyChange p (.event c e) w = some (.erase s.enemy.identifier) := by
          simp [enemyChange,hasked,hblow,hb]
        rw [hchange]
        exact Settling.defeat hothers hcr hcw hdown.reads hdown.writes hm

theorem Settling.snapshot {m : String → Option (Enemy K)} {c₀ i : Nat} (hi : Settling m c₀ w)
    (h : step p (.snapshot c i) w = some w') : Settling m c₀ w' := by
  obtain ⟨q,hr,rfl⟩ := step_snapshot h
  obtain rfl := hi.only hr
  have hsame : ((w.clients c).reads.set i ⟨q,some (backend.view q w.store)⟩).map Pending.read =
      (w.clients c).reads.map Pending.read := by
    obtain ⟨hlt,hget⟩ := List.getElem?_eq_some_iff.mp hr
    have hlt' : i < ((w.clients c).reads.map Pending.read).length := by simpa using hlt
    have hread : ((w.clients c).reads.map Pending.read)[i] = q := by simp [hget]
    rw [List.map_set,← hread,List.set_getElem_self hlt']
  refine ⟨fun c' hc => ?_,?_,?_⟩
  · rw [setClient_clients_ne w c _ hc]
    exact hi.others c' hc
  · rw [setClient_clients_self]
    rcases hi.order with hplain | ⟨⟨rd,hreads⟩,hwrites⟩
    · refine Or.inl (fun rd hrd => ?_)
      rcases List.mem_or_eq_of_mem_set hrd with hold | rfl
      · exact hplain rd hold
      · exact hplain ⟨q,none⟩ (List.mem_of_getElem? hr)
    · refine Or.inr ⟨?_,hwrites⟩
      rw [hreads] at hr ⊢
      cases i with
      | zero => exact ⟨_,rfl⟩
      | succ i => simp at hr
  · have htree := hi.tree
    rw [setClient_clients_self]
    rw [outbox] at htree ⊢
    simp only [hsame]
    exact htree

theorem Settling.apply {m : String → Option (Enemy K)} {c₀ : Nat} (hi : Settling m c₀ w)
    (h : step p (.apply c) w = some w') : Settling m c₀ w' := by
  obtain ⟨x,xs,hx,rfl⟩ := step_apply h
  have hc : c = c₀ := by
    by_contra hc
    simp [(hi.others c hc).2] at hx
  subst hc
  have hplain : ∀ rd ∈ (w.clients c).reads, rd.read.Plain := by
    rcases hi.order with hplain | ⟨_,hwrites⟩
    · exact hplain
    · simp [hx] at hwrites
  refine ⟨fun c' hc => ?_,Or.inl ?_,?_⟩
  · have hother := hi.others c' hc
    simpa only [setClient_clients_ne w c _ hc] using hother
  · simpa using hplain
  · have htree := hi.tree
    rw [outbox,hx,List.cons_append,drain_cons] at htree
    rw [setClient_clients_self]
    exact htree

theorem enemyChange_deliver {i : Nat} {d : Draw K} {q : Read K} {s : FNode K}
    (hr : (w.clients c).reads[i]? = some ⟨q,some s⟩) : enemyChange p (.deliver c i d) w =
      (asked ((w.clients c).locals.onRead p q s d)).map Change.insert := by
  simp only [enemyChange,spawned,hr,blow]
  cases asked ((w.clients c).locals.onRead p q s d) <;> rfl

theorem Settling.deliverPlain {m : String → Option (Enemy K)} {i : Nat} {d : Draw K} {q : Read K}
    {s : FNode K} (hi : Settling m c w) (hr : (w.clients c).reads[i]? = some ⟨q,some s⟩)
    (hplain : ∀ rd ∈ (w.clients c).reads, rd.read.Plain) :
    asked ((w.clients c).locals.onRead p q s d) = none ∧
      Settling m c (w.react c { w.clients c with reads := (w.clients c).reads.eraseIdx i }
        ((w.clients c).locals.onRead p q s d)) := by
  have hbox := hi.tree
  rw [outbox_eq_writes (fun rd hrd => (hplain rd hrd).1)] at hbox
  cases hr' : (w.clients c).locals.onRead p q s d with
  | error t => exact ⟨rfl,Settling.error hi.others hbox⟩
  | ok r =>
    obtain ⟨hreads,hwrites⟩ := (onRead_outcome hr').plain (hplain _ (List.mem_of_getElem? hr))
    have hall : ∀ rd ∈ (({ w.clients c with reads := (w.clients c).reads.eraseIdx i } :
        Client K).absorb (.ok r)).reads, rd.read.Plain := by
      refine forall_reads_absorb (fun rd hrd => hplain rd (List.mem_of_mem_eraseIdx hrd)) ?_
      rintro r' he q' hq'
      cases he
      exact hreads q' hq'
    refine ⟨asked_of_plain (fun q' hq' => (hreads q' hq').1),?_⟩
    refine Settling.react hi.others (Or.inl hall) ?_
    rw [outbox_eq_writes (fun rd hrd => (hall rd hrd).1)]
    simp only [Client.absorb,drain_append]
    rw [getImmediateChild_drain_users hwrites]
    exact hbox

section
variable {cl : Client K} {device : Device K} {tab : Nat} {s : FNode K} {d : Draw K}

theorem Settling.deliverCount (ho : ∀ c', c' ≠ c → (w.clients c').Quiet) (hr : cl.reads = [])
    (hw : cl.writes = [])
    (hm : EnemyTree (after Enemy.identifier ops) (w.store.getImmediateChild "enemies")) :
    Settling (after Enemy.identifier (ops ++ ((asked (device.onRead p
        (.map tab .getNumberOfEnemiesAroundUser) s d)).map Change.insert).toList)) c
      (w.react c cl (device.onRead p (.map tab .getNumberOfEnemiesAroundUser) s d)) := by
  cases hread : device.onRead p (.map tab .getNumberOfEnemiesAroundUser) s d with
  | error t =>
    rw [asked,Option.map_none,Option.toList_none,List.append_nil]
    refine Settling.error ho ?_
    rw [hw]
    exact hm
  | ok r =>
    rcases (onRead_outcome hread).count with ⟨enemy,hs⟩ | ⟨hrr,hrw⟩
    · rw [hs.asked]
      exact Settling.stores ho hr hw hs hm
    · rw [asked_of_plain (by simp [hrr]),Option.map_none,Option.toList_none,List.append_nil]
      refine Settling.react ho (inOrder_absorb hr hw hrw (Or.inr (by simp [hrr]))) ?_
      rw [outbox_absorb hr hw (by simp [hrr]),hrw]
      exact hm

/-- The callback of a spawn issues the six writes that were expected of it. -/
theorem Settling.deliverStore {m : String → Option (Enemy K)} {t : TabBarVC K} {enemy : Enemy K}
    (ho : ∀ c', c' ≠ c → (w.clients c').Quiet) (hr : cl.reads = []) (hw : cl.writes = [])
    (ht : device.tabBarVCs[tab]? = some t)
    (hm : EnemyTree m ((drain (MapVC.enemyWrites enemy) w.store).getImmediateChild "enemies")) :
    asked (device.onRead p (.map tab (.addEnemyToFirebase enemy)) s d) = none ∧
      Settling m c (w.react c cl
        (device.onRead p (.map tab (.addEnemyToFirebase enemy)) s d)) := by
  have hread : device.onRead p (.map tab (.addEnemyToFirebase enemy)) s d =
      .ok (device.ofMap tab t { locals := t.map, writes := MapVC.enemyWrites enemy }) := by
    simp [Device.onRead,ht,MapVC.onRead,bind,Except.bind]
  rw [hread]
  refine ⟨asked_of_plain (by simp [Device.ofMap]),?_⟩
  refine Settling.react ho (Or.inl (by simp [Client.absorb,hr,Device.ofMap])) ?_
  rw [outbox_absorb hr hw (by simp [Device.ofMap])]
  exact hm

end

theorem Settling.deliver {c₀ i : Nat} {d : Draw K} (htabs : TabsThere (w.clients c))
    (hi : Settling (after Enemy.identifier ops) c₀ w)
    (h : step p (.deliver c i d) w = some w') :
    Settling (after Enemy.identifier (ops ++ (enemyChange p (.deliver c i d) w).toList)) c₀ w' := by
  obtain ⟨q,s,hr,rfl⟩ := step_deliver h
  obtain rfl := hi.only hr
  have hmem := List.mem_of_getElem? hr
  have hread : (program p).onRead q s d (w.clients c).locals =
    (w.clients c).locals.onRead p q s d := rfl
  rw [hread,enemyChange_deliver hr]
  by_cases hplain : ∀ rd ∈ (w.clients c).reads, rd.read.Plain
  · obtain ⟨hnone,hsettling⟩ := hi.deliverPlain (p := p) (d := d) hr hplain
    simpa [hnone] using hsettling
  · -- a single read, of a count or of an enemy to store
    obtain ⟨⟨rd,hreads⟩,hwrites⟩ := hi.order.resolve_left hplain
    obtain rfl : ⟨q,some s⟩ = rd := by simpa [hreads] using hmem
    have herase : (w.clients c).reads.eraseIdx i = [] := by
      rw [hreads] at hr ⊢
      cases i with
      | zero => rfl
      | succ i => simp at hr
    have hcr : ({ w.clients c with reads := (w.clients c).reads.eraseIdx i } : Client K).reads =
      [] := herase
    have hnot : ¬ q.Plain := fun hq => hplain (by simpa [hreads] using hq)
    have hbox := hi.tree
    rw [outbox,hreads,hwrites] at hbox
    cases q with
    | map tab mq =>
      cases mq with
      | getNumberOfEnemiesAroundUser =>
        exact Settling.deliverCount hi.others hcr hwrites hbox
      | addEnemyToFirebase enemy =>
        obtain ⟨t,ht⟩ : ∃ t, (w.clients c).locals.tabBarVCs[tab]? = some t :=
          ⟨_,List.getElem?_eq_getElem (htabs _ hmem tab _ rfl)⟩
        obtain ⟨hnone,hsettling⟩ := Settling.deliverStore (p := p) (s := s) (d := d) hi.others hcr
          hwrites ht (by simpa [Read.enemy,MapRead.enemy] using hbox)
        simpa [hnone] using hsettling
      | _ => exact absurd ⟨rfl,by simp⟩ hnot
    | _ => exact absurd ⟨rfl,by simp⟩ hnot

theorem Settling.step {c₀ : Nat} {l : Label K} (htabs : ∀ c, TabsThere (w.clients c))
    (hi : Settling (after Enemy.identifier ops) c₀ w) (hc : OneAtATime l w)
    (h : GFLGO.step p l w = some w') :
    ∃ c, Settling (after Enemy.identifier (ops ++ (enemyChange p l w).toList)) c w' := by
  cases l with
  | event c e => exact ⟨c,Settling.event hc (hi.tree_of_quiet hc) h⟩
  | snapshot c i => exact ⟨c₀,by simpa [enemyChange,spawned,blow] using hi.snapshot h⟩
  | deliver c i d => exact ⟨c₀,hi.deliver (htabs c) h⟩
  | apply c => exact ⟨c₀,by simpa [enemyChange,spawned,blow] using hi.apply h⟩

def enemyHistory (p : Platform K) (ls : List (Label K)) (w : World K) :
    List (Change String (Enemy K)) :=
  collect (GFLGO.step p) (enemyChange p) ls w

theorem enemyChange_eq_some_insert {l : Label K} {enemy : Enemy K}
    (h : enemyChange p l w = some (.insert enemy)) : spawned p l w = some enemy := by
  unfold enemyChange at h
  split at h
  · next he =>
    cases h
    exact he
  · simp at h

theorem settling_of_run {store : FNode K} {ls : List (Label K)}
    (h : store.getChild ["enemies"] = .empty)
    (hc : Along (step p) OneAtATime ls (World.start store))
    (hr : run (step p) ls (World.start store) = some w) :
    ∃ c, Settling (after Enemy.identifier (enemyHistory p ls (World.start store))) c w := by
  have hquiet : (World.start store : World K).Quiet := fun _ => ⟨rfl,rfl⟩
  have hempty : EnemyTree (after Enemy.identifier ([] : List (Change String (Enemy K))))
      ((World.start store : World K).store.getImmediateChild "enemies") := by
    rw [← PathTree.getChild_singleton,World.start,h]
    exact EnemyTree.empty
  have hinv := run_collect (f := enemyChange p) (C := OneAtATime)
    (I := fun ops w => (∀ c, TabsThere (w.clients c)) ∧
      ∃ c, Settling (after Enemy.identifier ops) c w) (step p) ?_
    ⟨fun c rd hrd => by simp [World.start] at hrd,0,Settling.of_quiet hquiet hempty 0⟩ hc hr
  · exact hinv.2
  · rintro l u u' ops ⟨htabs,c,hi⟩ hl hs
    exact ⟨tabsThere_step htabs hs,hi.step htabs hl hs⟩

/-- Whatever the place and the distances, the scan of the map returns the
enemies of the history that are alive and near, each once. -/
structure FindsAlive (ops : List (Change String (Enemy K))) (store : FNode K) : Prop where
  finds : ∀ (q : Platform K) (c : Coordinate K) (randomName : String), ∃ found,
    MapVC.findEnemiesAroundUser q (some c) randomName (store.getChild ["enemies"]).children =
      .ok found ∧
    (found.map Enemy.identifier).Nodup ∧
    ∀ enemy, enemy ∈ found ↔ Alive Enemy.identifier ops enemy ∧
      q.distance ⟨enemy.latitude,enemy.longitude⟩ c ≤ 150

/-- Spawns and defeats that come one after another, from an empty /enemies on. -/
theorem findsAlive_of_oneAtATime (p : Platform K) (store : FNode K)
    (h : store.getChild ["enemies"] = .empty) (ls : List (Label K))
    (hc : Along (step p) OneAtATime ls (World.start store))
    (hid : ((inserted (enemyHistory p ls (World.start store))).map Enemy.identifier).Nodup)
    (w : World K) (hr : run (step p) ls (World.start store) = some w) (hq : w.Quiet) :
    FindsAlive (enemyHistory p ls (World.start store)) w.store := by
  obtain ⟨c₀,hi⟩ := settling_of_run h hc hr
  refine ⟨fun q c randomName => ?_⟩
  obtain ⟨found,hok,hnodup,hmem⟩ :=
    (hi.tree_of_quiet hq).findEnemiesAroundUser q c randomName
  refine ⟨found,hok,hnodup,fun enemy => ?_⟩
  rw [hmem,after_eq_some_iff Enemy.identifier hid]
  simp

end

end

/-- Two enemies are spawned, and the first of them is defeated. -/
def oneOfTwoDefeated : List (Label ℚ) :=
  login 0 sampleDraw "ann" "pw" ++ locate 0 sampleDraw 0 ⟨0,0⟩ ++ addEnemy 0 sampleDraw 0 ++
    addEnemy 0 { sampleDraw with randomChangeX := 5, time := 1500000005 } 0 ++ battle 0 0 0 ++
      defeat 0 0 0 9

theorem findsAlive_oneOfTwoDefeated : ∃ w,
    run (step planePlatform) oneOfTwoDefeated (World.start annStore) = some w ∧
      (enemyHistory planePlatform oneOfTwoDefeated (World.start annStore)).length = 3 ∧
      FindsAlive (enemyHistory planePlatform oneOfTwoDefeated (World.start annStore)) w.store := by
  have hrun : (run (step planePlatform) oneOfTwoDefeated (World.start annStore)).map
      (fun w => decide (∀ l ∈ oneOfTwoDefeated, (w.clients l.client).Quiet)) = some true := by
    decide +kernel
  obtain ⟨w,hw,he⟩ := Option.map_eq_some_iff.mp hrun
  have hstart : (World.start annStore).Quiet := fun _ => ⟨rfl,rfl⟩
  have hclient : ∀ l ∈ oneOfTwoDefeated, l.client = 0 := by decide +kernel
  have halong : Along (step planePlatform) (QuietClient 0) oneOfTwoDefeated
      (World.start annStore) := by
    decide +kernel
  exact ⟨w,hw,by decide +kernel,findsAlive_of_oneAtATime planePlatform annStore rfl
    oneOfTwoDefeated (oneAtATime_of_quietClient hstart hclient halong) (by decide +kernel) w hw
    (quiet_of_run hstart hw (of_decide_eq_true he))⟩

end GFLGO
