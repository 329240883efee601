import GFLGO.Location
import GFLGO.Outcomes

/-!
The two scans that fill the map again. What they find is drawn on the map and
changes nothing else, as long as they get through their snapshots: every record
has the fields they cast, and the location that they force is there.
-/

set_option autoImplicit false

namespace Async

def Reaction.mapLocals {L L' Q W N : Type} (f : L → L') (r : Reaction L Q W N) :
    Reaction L' Q W N :=
  { locals := f r.locals, reads := r.reads, writes := r.writes, notes := r.notes }

end Async

namespace GFLGO

open Runs Async

section
variable {K : Type}

def MapVC.unmarked (m : MapVC K) : MapVC K :=
  { m with enemyAnnotations := [], userAnnotations := [] }

def TabBarVC.unmarked (t : TabBarVC K) : TabBarVC K := { t with map := t.map.unmarked }

def Device.unmarked (d : Device K) : Device K :=
  { d with tabBarVCs := d.tabBarVCs.map TabBarVC.unmarked }

def MapEvent.looks : MapEvent K → Bool
  | .didSelect _ => true
  | _ => false

def Event.looks : Event K → Bool
  | .map _ e => e.looks
  | _ => false

def Read.isOperation : Read K → Bool
  | .changeIfValidPassword _ _ _ _ | .map _ (.didUpdateLocations _) => true
  | _ => false

@[simp] theorem MapVC.unmarked_unmarked (m : MapVC K) : m.unmarked.unmarked = m.unmarked := rfl

@[simp] theorem TabBarVC.unmarked_unmarked (t : TabBarVC K) : t.unmarked.unmarked = t.unmarked :=
  rfl

@[simp] theorem Device.unmarked_unmarked (d : Device K) : d.unmarked.unmarked = d.unmarked := by
  simp [unmarked,Function.comp_def]

@[simp] theorem TabBarVC.receives_unmarked (t : TabBarVC K) (e : MapEvent K) :
    t.unmarked.receives e = t.receives e := by
  cases e <;> rfl

theorem Device.unmarked_getElem? (d : Device K) (tab : Nat) :
    d.unmarked.tabBarVCs[tab]? = (d.tabBarVCs[tab]?).map TabBarVC.unmarked := by
  simp [unmarked]

theorem Device.unmarked_setTab (d : Device K) (tab : Nat) (t : TabBarVC K) :
    (d.setTab tab t).unmarked = d.unmarked.setTab tab t.unmarked := by
  simp [unmarked,setTab,List.map_set]

theorem Device.ofMap_unmarked (d : Device K) (tab : Nat) (t : TabBarVC K) (r : MapReaction K) :
    (d.ofMap tab t r).mapLocals unmarked =
      d.unmarked.ofMap tab t.unmarked (r.mapLocals MapVC.unmarked) := by
  simp [ofMap,Reaction.mapLocals,unmarked_setTab,TabBarVC.unmarked]

theorem Device.setTab_self {d : Device K} {tab : Nat} {t : TabBarVC K}
    (ht : d.tabBarVCs[tab]? = some t) : d.setTab tab t = d := by
  obtain ⟨htab,rfl⟩ := List.getElem?_eq_some_iff.mp ht
  simp [setTab]

variable [Field K]

theorem MapVC.onEvent_unmarked (p : Platform K) {e : MapEvent K} (h : e.looks = false)
    (m : MapVC K) : (m.unmarked.onEvent p e).map (Reaction.mapLocals unmarked) =
      (m.onEvent p e).map (Reaction.mapLocals unmarked) := by
  cases e with
  | viewWillAppear =>
    cases hf : m.firstCenter <;>
      simp [onEvent,viewWillAppear,unmarked,hf,setUpAnnotations,Except.map,Reaction.mapLocals]
  | viewDidDisappear => rfl
  | didUpdateLocations locations =>
    cases hl : locations.getLast? <;> cases hf : m.firstCenter <;>
      simp [onEvent,didUpdateLocations,setUserLocation,centerMap,setUpAnnotations,unmarked,hl,hf,
        unwrap,bind,Except.bind,Except.map,Reaction.mapLocals]
  | centerAction =>
    cases hu : m.userLocation <;>
      simp [onEvent,centerAction,centerMap,setUpAnnotations,unmarked,hu,unwrap,bind,Except.bind,
        Except.map,Reaction.mapLocals]
  | addEnemyAction d =>
    cases hu : m.userLocation <;>
      simp [onEvent,spawnEnemy,unmarked,hu,unwrap,bind,Except.bind,Except.map,
        Reaction.mapLocals]
  | timerTick => rfl
  | didSelect i => contradiction
  | touchesBegan onCallout => cases onCallout <;> rfl

variable [LinearOrder K]

theorem Device.onEvent_of_no_tab (p : Platform K) {e : Event K} {d : Device K} {tab : Nat}
    (he : e.tab = some tab) (ht : d.tabBarVCs[tab]? = none) : d.onEvent p e = .ok d.idle := by
  cases e <;> cases he <;> simp [onEvent,ht]

theorem Device.onEvent_unmarked (p : Platform K) {e : Event K} (h : e.looks = false)
    (d : Device K) : (d.unmarked.onEvent p e).map (Reaction.mapLocals unmarked) =
      (d.onEvent p e).map (Reaction.mapLocals unmarked) := by
  have hidle : d.unmarked.idle.mapLocals unmarked = d.idle.mapLocals unmarked := by
    simp [idle,Reaction.mapLocals]
  by_cases hclosed : ∃ tab, e.tab = some tab ∧ d.tabBarVCs[tab]? = none
  · obtain ⟨tab,he,ht⟩ := hclosed
    rw [onEvent_of_no_tab p he ht,
      onEvent_of_no_tab p he (show d.unmarked.tabBarVCs[tab]? = none by
        rw [unmarked_getElem?,ht]
        rfl)]
    exact congrArg Except.ok hidle
  have hopen (tab : Nat) (he : e.tab = some tab) : ∃ t, d.tabBarVCs[tab]? = some t :=
    Option.ne_none_iff_exists'.mp (fun ht => hclosed ⟨tab,he,ht⟩)
  cases e with
  | map tab e =>
    obtain ⟨t,ht⟩ := hopen tab rfl
    have hm := MapVC.onEvent_unmarked p h t.map
    have hmap : t.unmarked.map = t.map.unmarked := rfl
    cases hs : t.receives e with
    | false => simp [onEvent,unmarked_getElem?,ht,hs,Except.map,hidle]
    | true =>
      simp only [onEvent,unmarked_getElem?,ht,hs,Option.map_some,TabBarVC.receives_unmarked,
        if_true,hmap]
      cases hr : t.map.onEvent p e <;> cases hr' : t.map.unmarked.onEvent p e <;>
        simp_all [Except.map,bind,Except.bind,ofMap_unmarked]
  | battleAction tab =>
    obtain ⟨t,ht⟩ := hopen tab rfl
    cases hs : t.onStack <;> cases hc : t.map.enemyCalloutHidden <;>
      cases he : t.map.selectedEnemy <;>
      simp [onEvent,unmarked_getElem?,ht,hs,hc,he,TabBarVC.unmarked,MapVC.unmarked,Except.map,
        idle,Reaction.mapLocals,unmarked_setTab,bind,Except.bind,unwrap]
  | scene tab scene e =>
    obtain ⟨t,ht⟩ := hopen tab rfl
    cases hs : t.scenes[scene]? with
    | none => simp [onEvent,unmarked_getElem?,ht,hs,TabBarVC.unmarked,Except.map,hidle]
    | some s =>
      cases hr : s.receive t.map.user e <;>
        simp [onEvent,unmarked_getElem?,ht,hs,hr,TabBarVC.unmarked,MapVC.unmarked,Except.map,
          idle,ofScene,Reaction.mapLocals,unmarked_setTab]
  | newPasswordSegue tab =>
    obtain ⟨t,ht⟩ := hopen tab rfl
    cases hs : t.onStack <;>
      simp [onEvent,unmarked_getElem?,ht,hs,TabBarVC.unmarked,Except.map,idle,
        Reaction.mapLocals,unmarked_setTab]
  | editNewPassword tab vc oldPassword newPassword =>
    obtain ⟨t,ht⟩ := hopen tab rfl
    simp [onEvent,unmarked_getElem?,ht,TabBarVC.unmarked,Except.map,Reaction.mapLocals,
      unmarked_setTab]
  | changePasswordAction tab vc =>
    obtain ⟨t,ht⟩ := hopen tab rfl
    cases hs : t.newPasswordVCs[vc]? <;>
      simp [onEvent,unmarked_getElem?,ht,hs,TabBarVC.unmarked,MapVC.unmarked,Except.map,idle,
        Reaction.mapLocals]
  | logout tab =>
    obtain ⟨t,ht⟩ := hopen tab rfl
    cases hs : t.onStack <;>
      simp [onEvent,unmarked_getElem?,ht,hs,TabBarVC.unmarked,Except.map,idle,
        Reaction.mapLocals,unmarked_setTab]
  | createAccountAction vc =>
    cases hv : d.signupVCs[vc]? <;>
      simp [onEvent,unmarked,hv,Except.map,Reaction.mapLocals,idle,Function.comp_def]
  | _ => simp [onEvent,unmarked,Except.map,Reaction.mapLocals,Function.comp_def]

variable [FloorRing K]

theorem Device.onRead_unmarked (p : Platform K) {q : Read K} (h : q.isOperation = true)
    (s : FNode K) (draw : Draw K) (d : Device K) :
    (d.unmarked.onRead p q s draw).map (Reaction.mapLocals unmarked) =
      (d.onRead p q s draw).map (Reaction.mapLocals unmarked) := by
  cases q with
  | changeIfValidPassword tab vc oldPassword userID =>
    have hvc : (d.unmarked.tabBarVCs[tab]?).bind (fun t => t.newPasswordVCs[vc]?) =
        (d.tabBarVCs[tab]?).bind (fun t => t.newPasswordVCs[vc]?) := by
      rw [unmarked_getElem?]
      cases d.tabBarVCs[tab]? <;> rfl
    cases hp : NewPasswordVC.truePassword s with
    | error t => simp [onRead,hp,bind,Except.bind]
    | ok truePassword =>
      simp only [onRead,hp,bind,Except.bind]
      rw [hvc]
      split
      · split <;> simp [Except.map,Reaction.mapLocals,idle]
      · simp [Except.map,Reaction.mapLocals]
  | map tab q =>
    cases q with
    | didUpdateLocations c =>
      cases ht : d.tabBarVCs[tab]? with
      | none => simp [onRead,unmarked_getElem?,ht,Except.map,Reaction.mapLocals,idle]
      | some t =>
        simp only [onRead,MapVC.onRead,unmarked_getElem?,ht,Option.map_some,bind,Except.bind,
          Except.map,ofMap_unmarked,Device.unmarked_unmarked,TabBarVC.unmarked_unmarked]
        rfl
    | _ => contradiction
  | _ => contradiction

end

section
variable {K : Type} [Field K] [LinearOrder K] [FloorRing K] {p : Platform K} {q : MapRead K}
  {s : FNode K}

/-- Every record that the scan casts has the fields. The own account is skipped. -/
def MapRead.CastsFit (account : Option Int) : MapRead K → FNode K → Prop
  | .findEnemiesAroundUser, s => ∀ child ∈ s.children, EnemyFields child.2
  | .findPlayersAroundUser, s => ∀ child ∈ s.children, intOfString child.1 ≠ account →
    PlayerFields child.2 ∧ intOfString child.1 ≠ none
  | _, _ => True

instance (account : Option Int) (q : MapRead K) (s : FNode K) : Decidable (q.CastsFit account s) :=
  match q with
  | .findEnemiesAroundUser =>
    inferInstanceAs (Decidable (∀ child ∈ s.children, EnemyFields child.2))
  | .findPlayersAroundUser =>
    inferInstanceAs (Decidable (∀ child ∈ s.children, intOfString child.1 ≠ account → _ ∧ _))
  | .didUpdateLocations _ | .getNumberOfEnemiesAroundUser | .addEnemyToFirebase _ => isTrue trivial

theorem MapVC.onRead_fills (hq : fills q = true) (draw : Draw K) {m : MapVC K}
    (hu : m.userLocation ≠ none) (hs : q.CastsFit (some m.user.userID) s) :
    (m.onRead p q s draw).map (Reaction.mapLocals unmarked) = .ok { locals := m.unmarked } := by
  cases q with
  | findEnemiesAroundUser =>
    cases hr : findEnemiesAroundUser p m.userLocation draw.randomName s.children with
    | ok enemies => simp [onRead,hr,bind,Except.bind,Except.map,Reaction.mapLocals,unmarked]
    | error t =>
      rcases findEnemiesAroundUser_eq_error hr with ⟨_,_,c,hc,hn⟩ | ⟨_,hn⟩
      · exact absurd (hs c hc) hn
      · exact absurd hn hu
  | findPlayersAroundUser =>
    cases hr : findPlayersAroundUser p m.user m.userLocation s.children with
    | ok users => simp [onRead,hr,bind,Except.bind,Except.map,Reaction.mapLocals,unmarked]
    | error t =>
      rcases findPlayersAroundUser_eq_error hr with ⟨_,_,c,hc,hk,hn⟩ | ⟨_,hn⟩ | ⟨_,c,hc,hk⟩
      · exact absurd (hs c hc hk).1 hn
      · exact absurd hn hu
      · exact absurd hk (hs c hc (by simp [hk])).2
  | _ => contradiction

/-- A scan that gets through its snapshot only draws on the map. -/
theorem Device.onRead_fills (hq : MapVC.fills q = true) (draw : Draw K) {d : Device K} {tab : Nat}
    (hd : ∀ t, d.tabBarVCs[tab]? = some t →
      t.map.userLocation ≠ none ∧ q.CastsFit (some t.map.user.userID) s) :
    (d.onRead p (.map tab q) s draw).map (Reaction.mapLocals unmarked) = .ok d.unmarked.idle := by
  cases ht : d.tabBarVCs[tab]? with
  | none => simp [onRead,ht,Except.map,Reaction.mapLocals,idle]
  | some t =>
    obtain ⟨hu,hs⟩ := hd t ht
    have hm := MapVC.onRead_fills (p := p) hq draw hu hs
    have hself : d.unmarked.tabBarVCs[tab]? = some t.unmarked := by
      rw [unmarked_getElem?,ht]
      rfl
    simp only [onRead,ht]
    cases hr : t.map.onRead p q s draw with
    | error e =>
      rw [hr] at hm
      contradiction
    | ok r =>
      rw [hr] at hm
      simp only [Except.map,Except.ok.injEq,bind,Except.bind,ofMap_unmarked] at hm ⊢
      rw [hm]
      exact congrArg idle (setTab_self hself)

end

section
variable {K : Type}

def Device.Waits (d : Device K) : Prop :=
  ∀ (tab : Nat) (t : TabBarVC K), d.tabBarVCs[tab]? = some t → t.map.userLocation = none →
    t.map.firstCenter = true

structure Device.LeavesWaiting (d : Device K) (r : DeviceReaction K) : Prop where
  grows : d.tabBarVCs.length ≤ r.locals.tabBarVCs.length
  opened : ∀ tab q, .map tab q ∈ r.reads → tab < d.tabBarVCs.length
  waiting : ∀ tab t', r.locals.tabBarVCs[tab]? = some t' → t'.map.userLocation = none →
    t'.map.firstCenter = true ∧ (∀ q, .map tab q ∈ r.reads → MapVC.fills q = false) ∧
      ∀ t, d.tabBarVCs[tab]? = some t → t.map.userLocation = none

/-- None of the client's maps has a scan under way before it has a location. -/
structure ScansLocated (cl : Client K) : Prop where
  opened : ∀ rd ∈ cl.reads, ∀ tab q, rd.read = .map tab q → tab < cl.locals.tabBarVCs.length
  waiting : ∀ tab (t : TabBarVC K), cl.locals.tabBarVCs[tab]? = some t →
    t.map.userLocation = none → t.map.firstCenter = true ∧
      ∀ rd ∈ cl.reads, ∀ q, rd.read = .map tab q → MapVC.fills q = false

variable {d : Device K} {cl : Client K}

theorem Device.LeavesWaiting.same (hd : d.Waits) {r : DeviceReaction K}
    (hl : r.locals.tabBarVCs = d.tabBarVCs) (hr : ∀ tab q, .map tab q ∉ r.reads) :
    d.LeavesWaiting r where
  grows := by rw [hl]
  opened := fun tab q hq => (hr tab q hq).elim
  waiting := by
    intro tab t' ht' hu
    rw [hl] at ht'
    refine ⟨hd tab t' ht' hu,fun q hq => (hr tab q hq).elim,fun t ht => ?_⟩
    rw [ht'] at ht
    exact Option.some.inj ht ▸ hu

theorem Device.LeavesWaiting.setTab (hd : d.Waits) {tab : Nat} {t s : TabBarVC K}
    (ht : d.tabBarVCs[tab]? = some t) {r : DeviceReaction K}
    (hl : r.locals.tabBarVCs = (d.setTab tab s).tabBarVCs)
    (hr : ∀ tab' q, .map tab' q ∈ r.reads → tab' = tab)
    (hm : s.map.userLocation = none → s.map.firstCenter = true ∧
      (∀ q, .map tab q ∈ r.reads → MapVC.fills q = false) ∧ t.map.userLocation = none) :
    d.LeavesWaiting r := by
  have htab := (List.getElem?_eq_some_iff.mp ht).1
  refine ⟨by simp [hl,Device.setTab],fun tab' q hq => hr tab' q hq ▸ htab,fun tab' u hu hn => ?_⟩
  rw [hl] at hu
  by_cases he : tab' = tab
  · subst he
    obtain rfl : s = u := by simpa [Device.setTab,htab] using hu
    obtain ⟨hf,hfill,hold⟩ := hm hn
    refine ⟨hf,hfill,fun t₀ ht₀ => ?_⟩
    rw [ht] at ht₀
    exact Option.some.inj ht₀ ▸ hold
  · have hu' : d.tabBarVCs[tab']? = some u := by
      simpa [Device.setTab,List.getElem?_set_ne (Ne.symm he)] using hu
    refine ⟨hd tab' u hu' hn,fun q hq => (he (hr tab' q hq)).elim,fun t₀ ht₀ => ?_⟩
    rw [hu'] at ht₀
    exact Option.some.inj ht₀ ▸ hn

theorem Device.LeavesWaiting.setTab_map (hd : d.Waits) {tab : Nat} {t t' : TabBarVC K}
    (ht : d.tabBarVCs[tab]? = some t) {r : DeviceReaction K}
    (hl : r.locals.tabBarVCs = (d.setTab tab t').tabBarVCs) (hr : r.reads = [])
    (hu : t'.map.userLocation = t.map.userLocation)
    (hf : t'.map.firstCenter = t.map.firstCenter) : d.LeavesWaiting r := by
  refine .setTab hd ht hl (by simp [hr]) (fun hn => ?_)
  rw [hu] at hn
  exact ⟨hf.trans (hd tab t ht hn),by simp [hr],hn⟩

theorem ScansLocated.waits (h : ScansLocated cl) : cl.locals.Waits :=
  fun tab t ht hu => (h.waiting tab t ht hu).1

theorem ScansLocated.absorb (h : ScansLocated cl) {r : Except Trap (DeviceReaction K)}
    (hr : ∀ r', r = .ok r' → cl.locals.LeavesWaiting r') : ScansLocated (cl.absorb r) := by
  cases r with
  | error t =>
    exact ⟨by simp [Client.absorb],fun tab t ht hu => ⟨h.waits tab t ht hu,by simp [Client.absorb]⟩⟩
  | ok r =>
    have hleave := hr r rfl
    constructor
    · intro rd hrd tab q hq
      rcases mem_reads_absorb.mp hrd with hold | ⟨q',hq',rfl⟩
      · exact (h.opened rd hold tab q hq).trans_le hleave.grows
      · exact (hleave.opened tab q (hq ▸ hq')).trans_le hleave.grows
    · intro tab t' ht' hu
      obtain ⟨hf,hfill,hold⟩ := hleave.waiting tab t' ht' hu
      refine ⟨hf,fun rd hrd q hq => ?_⟩
      rcases mem_reads_absorb.mp hrd with hrd | ⟨q',hq',rfl⟩
      · have ht := List.getElem?_eq_getElem (h.opened rd hrd tab q hq)
        exact (h.waiting tab _ ht (hold _ ht)).2 rd hrd q hq
      · exact hfill q (hq ▸ hq')

theorem ScansLocated.reads (h : ScansLocated cl) {reads : List (Pending (Read K) (FNode K))}
    (hr : ∀ rd ∈ reads, ∃ rd' ∈ cl.reads, rd'.read = rd.read) : ScansLocated { cl with reads } where
  opened := by
    intro rd hrd tab q hq
    obtain ⟨rd',hrd',he⟩ := hr rd hrd
    exact h.opened rd' hrd' tab q (he.trans hq)
  waiting := by
    intro tab t ht hu
    refine ⟨h.waits tab t ht hu,fun rd hrd q hq => ?_⟩
    obtain ⟨rd',hrd',he⟩ := hr rd hrd
    exact (h.waiting tab t ht hu).2 rd' hrd' q (he.trans hq)

variable [Field K] [LinearOrder K] [FloorRing K] {p : Platform K} {r : DeviceReaction K}

theorem EventOutcome.leavesWaiting {e : Event K} (h : EventOutcome p d e r) (hd : d.Waits) :
    d.LeavesWaiting r := by
  cases h with
  | @map tab t e r ht hr =>
    refine .setTab (s := { t with map := r.locals }) hd ht rfl (fun tab' q hq => ?_) (fun hn => ?_)
    · simp only [Device.ofMap,List.mem_map,Read.map.injEq] at hq
      obtain ⟨_,_,he,_⟩ := hq
      exact he.symm
    · obtain ⟨hu,hf,hq⟩ := MapVC.onEvent_waiting hr (hd tab t ht) hn
      refine ⟨hf.trans (hd tab t ht hu),fun q hmem => hq q ?_,hu⟩
      simpa [Device.ofMap] using hmem
  | battleAction ht he => exact .setTab_map hd ht rfl rfl rfl rfl
  | scene ht hs hr => exact .setTab_map hd ht rfl rfl rfl rfl
  | newPassword ht => exact .setTab_map hd ht rfl rfl rfl rfl
  | logout ht => exact .setTab_map hd ht rfl rfl rfl rfl
  | _ => exact .same hd rfl (by simp [Device.idle])

theorem ReadOutcome.leavesWaiting {q : Read K} {s : FNode K} {draw : Draw K}
    (h : ReadOutcome p s draw d q r) (hd : d.Waits) : d.LeavesWaiting r := by
  cases h with
  | @map tab t q r ht hr =>
    refine .setTab (s := { t with map := r.locals }) hd ht rfl (fun tab' q hq => ?_) (fun hn => ?_)
    · simp only [Device.ofMap,List.mem_map,Read.map.injEq] at hq
      obtain ⟨_,_,he,_⟩ := hq
      exact he.symm
    · obtain ⟨hu,hf,hq⟩ := MapVC.onRead_waiting hr hn
      refine ⟨hf.trans (hd tab t ht hu),fun q hmem => hq q ?_,hu⟩
      simpa [Device.ofMap] using hmem
  | login hl =>
    -- the new tab bar has no location, and nothing was asked for it
    refine ⟨by simp,by simp,fun tab t' ht' hu => ?_⟩
    simp only [List.getElem?_append] at ht'
    split at ht'
    · refine ⟨hd tab t' ht' hu,by simp,fun t ht => ?_⟩
      rw [ht'] at ht
      exact Option.some.inj ht ▸ hu
    · next htab =>
      rw [List.getElem?_singleton] at ht'
      split at ht'
      · cases ht'
        refine ⟨rfl,by simp,fun t ht => ?_⟩
        exact absurd (List.getElem?_eq_some_iff.mp ht).1 htab
      · contradiction
  | _ => exact .same hd rfl (by simp [Device.idle])

theorem ScansLocated.step {l : Label K} {w w' : World K} {c : Nat} (h : ScansLocated (w.clients c))
    (hs : GFLGO.step p l w = some w') : ScansLocated (w'.clients c) := by
  have hstep := client_step hs c
  generalize w'.clients c = cl at hstep
  cases hstep with
  | other hl => exact h
  | event => exact h.absorb (fun r hr => (onEvent_outcome hr).leavesWaiting h.waits)
  | snapshot hq =>
    refine h.reads (fun rd hrd => ?_)
    rcases List.mem_or_eq_of_mem_set hrd with hold | rfl
    · exact ⟨rd,hold,rfl⟩
    · exact ⟨_,List.mem_of_getElem? hq,rfl⟩
  | deliver hq =>
    refine ScansLocated.absorb (h.reads (fun rd hrd => ⟨rd,List.mem_of_mem_eraseIdx hrd,rfl⟩))
      (fun r hr => ?_)
    exact (onRead_outcome hr).leavesWaiting h.waits
  | apply hx => exact ⟨h.opened,h.waiting⟩

/-- No scan of a client that has just been started runs ahead of the location. -/
theorem scansLocated_of_run {ls : List (Label K)} {store : FNode K} {w : World K}
    (hr : run (GFLGO.step p) ls (World.start store) = some w) (c : Nat) :
    ScansLocated (w.clients c) := by
  refine run_invariant (C := fun _ _ => True) (I := fun w => ScansLocated (w.clients c))
    (GFLGO.step p) (fun l w w' h _ hs => h.step hs) ?_ ?_ hr
  · exact ⟨by simp [World.start],by simp [World.start]⟩
  · exact along_of_forall_mem (GFLGO.step p) (fun _ _ => trivial) _

end

end GFLGO
