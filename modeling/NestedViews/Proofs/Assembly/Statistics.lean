import NestedViews.Proofs.Assembly.Transcript

namespace NestedViews

open Effect

variable {σ : Type} {e : Executor σ} {g : Group} {groups : List Group} {sites : List Site}
variable {exchanges : List Exchange} {parts : List (List Exchange)} {batches : Bool}

namespace Stats

theorem after_singles (s : Stats) (rows : Nat)
    (h : ∀ x ∈ exchanges, ∃ query vector answer, x = .single query vector answer) :
    s.after exchanges rows =
      ⟨s.calls + exchanges.length, s.batches, s.vectors + exchanges.length, s.rows + rows⟩ := by
  have hbatches : exchanges.countP (fun x => x.call.batched) = 0 := by
    rw [List.countP_eq_zero]
    intro x hx
    obtain ⟨_, _, _, rfl⟩ := h x hx
    exact Bool.false_ne_true
  have hvectors : (exchanges.map fun x => x.call.vectors.length) = exchanges.map fun _ => 1 := by
    apply List.map_congr_left
    intro x hx
    obtain ⟨_, _, _, rfl⟩ := h x hx
    rfl
  simp [after, hbatches, hvectors]

theorem after_answered (s : Stats) (rows : Nat)
    (h : List.Forall₂ Site.AnsweredBy sites exchanges) :
    s.after exchanges rows =
      ⟨s.calls + sites.length, s.batches, s.vectors + sites.length, s.rows + rows⟩ := by
  rw [h.length_eq]
  apply after_singles
  intro x hx
  obtain ⟨site, query, vector, _, rfl⟩ := exists_of_forall₂ h.flip hx
  exact ⟨query, vector, _, rfl⟩

def callsFor (batches : Bool) (collections : Nat) : Nat :=
  if batches then if 1 ≤ collections then 1 else 0 else collections

def batchesFor (batches : Bool) (collections : Nat) : Nat :=
  if batches then if 2 ≤ collections then 1 else 0 else 0

theorem after_serves (hbatches : ∀ w, e.answersBatches w = batches) (s : Stats)
    (h : e.Serves g sites exchanges) :
    s.after exchanges 0 = ⟨s.calls + callsFor batches sites.length,
      s.batches + batchesFor batches sites.length, s.vectors + sites.length, s.rows⟩ := by
  obtain ⟨query, vectors, hvectors, hsends⟩ := h
  rw [hvectors.length_eq]
  cases hsends with
  | each hone hlength =>
    have hcalls : callsFor batches vectors.length = vectors.length ∧
        batchesFor batches vectors.length = 0 := by
      cases batches with
      | false => exact ⟨rfl, rfl⟩
      | true =>
        have hle : vectors.length ≤ 1 := by
          rcases hone with hle | ⟨w, hw⟩
          · exact hle
          · cases (hbatches w).symm.trans hw
        rcases Nat.le_one_iff_eq_zero_or_eq_one.mp hle with hlen | hlen <;> rw [hlen] <;>
          exact ⟨rfl, rfl⟩
    rw [after_singles, List.length_zipWith, ← hlength, Nat.min_self, hcalls.1, hcalls.2]
    · rfl
    · exact fun x hx => ⟨query, Executor.Sends.mem_zipWith_single hx⟩
  | batch hmany hanswers _ =>
    obtain ⟨w, hw⟩ := hanswers
    obtain rfl : batches = true := (hbatches w).symm.trans hw
    have hpos : 1 ≤ vectors.length := hmany.le
    simp [after, Exchange.batch, callsFor, batchesFor, hpos, Nat.succ_le_of_lt hmany]

theorem after_parts (hbatches : ∀ w, e.answersBatches w = batches) (s : Stats) (rows : Nat)
    (h : List.Forall₂ (fun g part => e.Serves g (Site.ofGroup g sites) part) groups parts) :
    s.after parts.flatten rows =
      ⟨s.calls + (groups.map fun g => callsFor batches (Site.ofGroup g sites).length).sum,
        s.batches + (groups.map fun g => batchesFor batches (Site.ofGroup g sites).length).sum,
        s.vectors + (groups.map fun g => (Site.ofGroup g sites).length).sum, s.rows + rows⟩ := by
  induction h generalizing s with
  | nil => rfl
  | cons hserves _ ih =>
    rw [List.flatten_cons, ← Nat.zero_add rows, ← after_after, after_serves hbatches s hserves, ih]
    simp [Nat.add_assoc]

theorem sum_callsFor {f : Group → Nat} :
    (groups.map fun g => callsFor true (f g)).sum = groups.countP fun g => 1 ≤ f g := by
  simp [callsFor, List.sum_map_ite, List.countP_eq_length_filter]

theorem sum_batchesFor {f : Group → Nat} :
    (groups.map fun g => batchesFor true (f g)).sum = groups.countP fun g => 2 ≤ f g := by
  simp [batchesFor, List.sum_map_ite, List.countP_eq_length_filter]

/-- The statistics of an assembly count what is in its document. -/
structure Exact (s : Stats) (c : Catalog) (strategy : Strategy) (batches : Bool) (requested : Group)
    (doc : Node) : Prop where
  rows : s.rows = doc.count
  vectors : s.vectors = (doc.sites []).length
  single : strategy = .depthFirst ∨ batches = false → s.calls = s.vectors ∧ s.batches = 0
  batched : strategy = .batched → batches = true →
    s.calls = ((c.subtree requested).countP fun g => 1 ≤ (doc.hosts [] requested g).length) ∧
      s.batches = ((c.subtree requested).countP fun g => 2 ≤ (doc.hosts [] requested g).length) ∧
        s.calls ≤ (c.subtree requested).length

end Stats

namespace Assembler

variable {a : Assembler σ} {r : Recorded σ} {world : σ} {name : String} {doc : Node} {stats : Stats}
variable {nodes : List Node}

theorem ends_assembleIn_shapes {scope : Scope} (hc : a.catalog.Coherent)
    (hg : g ∈ a.catalog.groups) :
    Ends (a.recorded.assembleIn g scope) r
      (fun result _ => ∃ nodes, (∀ n ∈ nodes, (a.catalog.outline g).Shapes n) ∧
        result.1 = .root (.mk g nodes) ∧
          Site.countNodes (result.1.sites scope) = result.2.rows) fun _ _ => True := by
  have hrows : ∀ {stats : Stats} {r' : Recorded σ} {exchanges : List Exchange} {count : Nat},
      Adds ⟨r, .zero⟩ ⟨r', stats⟩ exchanges count → count = stats.rows := fun hadds =>
    ((congrArg Stats.rows hadds.stats_eq).trans (Nat.zero_add _)).symm
  cases hstrategy : a.strategy r.world with
  | auto => exact absurd hstrategy (a.strategy_ne_auto r.world)
  | depthFirst =>
    apply (ends_assembleIn_inTurn hstrategy g scope).imp
    rintro _ _ ⟨nodes, hnodes, hroot, _, _, hadds⟩
    exact ⟨nodes, hnodes, hroot, hrows hadds⟩
  | batched =>
    apply (ends_assembleIn_inParts hstrategy hc hg).imp
    rintro _ _ ⟨nodes, hnodes, hroot, _, _, hadds⟩
    exact ⟨nodes, hnodes, hroot, hrows hadds⟩

theorem exact_of_inTurn {r' : Recorded σ} (hnodes : ∀ n ∈ nodes, (a.catalog.outline g).Shapes n)
    (h : InTurn ((Node.root (.mk g nodes)).sites []) ⟨r, .zero⟩ ⟨r', stats⟩) :
    stats.Exact a.catalog .depthFirst batches g (.root (.mk g nodes)) := by
  obtain ⟨exchanges, hanswered, hadds⟩ := h
  obtain rfl := hadds.stats_eq.trans (Stats.after_answered _ _ hanswered)
  constructor
  · rw [Outline.count_root hnodes]
    exact Nat.zero_add _
  · exact Nat.zero_add _
  · exact fun _ => ⟨rfl, rfl⟩
  · rintro ⟨⟩

section Counts

variable (hc : a.catalog.Coherent) (hg : g ∈ a.catalog.groups)
variable (hnodes : ∀ n ∈ nodes, (a.catalog.outline g).Shapes n)
include hc hg hnodes

theorem sum_length_ofGroup :
    ((a.catalog.outline g).groups.map fun h =>
      (Site.ofGroup h ((Node.root (.mk g nodes)).sites [])).length).sum =
        ((Node.root (.mk g nodes)).sites []).length := by
  rw [← List.length_flatMap]
  refine (Site.flatMap_ofGroup_perm (hc.nodup_names_outline hg) fun s hs => ?_).length_eq
  rw [← Catalog.group_outline a.catalog g] at hs
  exact List.mem_map_of_mem (Outline.group_mem_of_root_site hnodes s hs)

theorem map_length_ofGroup (count : Nat → Nat) :
    ((a.catalog.outline g).groups.map fun h =>
      count (Site.ofGroup h ((Node.root (.mk g nodes)).sites [])).length) =
        (a.catalog.outline g).groups.map fun h =>
          count ((Node.root (.mk g nodes)).hosts [] g h).length := by
  apply List.map_congr_left
  intro h hh
  rw [(hc.forall₂_holds_hosts hg hnodes hh).length_eq]

theorem exact_of_inParts {r' : Recorded σ}
    (hbatches : ∀ w, a.executor.answersBatches w = batches)
    (h : InParts a.executor (a.catalog.outline g).groups ((Node.root (.mk g nodes)).sites [])
      ⟨r, .zero⟩ ⟨r', stats⟩) :
    stats.Exact a.catalog .batched batches g (.root (.mk g nodes)) := by
  obtain ⟨parts, hparts, hadds⟩ := h
  obtain rfl := hadds.stats_eq.trans (Stats.after_parts hbatches _ _ hparts)
  constructor
  · rw [Outline.count_root hnodes]
    exact Nat.zero_add _
  · exact (Nat.zero_add _).trans (sum_length_ofGroup hc hg hnodes)
  · rintro (⟨⟨⟩⟩ | rfl)
    exact ⟨rfl, by simp [Stats.zero, Stats.batchesFor]⟩
  · rintro _ rfl
    have hperm := hc.groups_outline_perm hg
    have hcalls : Stats.zero.calls + ((a.catalog.outline g).groups.map fun h =>
        Stats.callsFor true (Site.ofGroup h ((Node.root (.mk g nodes)).sites [])).length).sum =
          ((a.catalog.subtree g).countP fun h =>
            1 ≤ ((Node.root (.mk g nodes)).hosts [] g h).length) := by
      rw [map_length_ofGroup hc hg hnodes (Stats.callsFor true), Stats.sum_callsFor,
        hperm.countP_eq]
      exact Nat.zero_add _
    refine ⟨hcalls, ?_, hcalls ▸ List.countP_le_length⟩
    rw [map_length_ofGroup hc hg hnodes (Stats.batchesFor true), Stats.sum_batchesFor,
      hperm.countP_eq]
    exact Nat.zero_add _

end Counts

theorem ends_assembleIn_exact (hc : a.catalog.Coherent) (hg : g ∈ a.catalog.groups)
    (hbatches : ∀ w, a.executor.answersBatches w = batches) :
    Ends (a.recorded.assembleIn g []) r
      (fun result _ => result.2.Exact a.catalog (a.strategy r.world) batches g result.1)
      fun _ _ => True := by
  cases hstrategy : a.strategy r.world with
  | auto => exact absurd hstrategy (a.strategy_ne_auto r.world)
  | depthFirst =>
    apply (ends_assembleIn_inTurn hstrategy g []).imp
    rintro ⟨_, stats⟩ r' ⟨nodes, hnodes, rfl, hturn⟩
    exact exact_of_inTurn hnodes hturn
  | batched =>
    apply (ends_assembleIn_inParts hstrategy hc hg).imp
    rintro ⟨_, stats⟩ r' ⟨nodes, hnodes, rfl, hparts⟩
    exact exact_of_inParts hc hg hnodes hbatches hparts

theorem exact_statistics (hc : a.catalog.Built)
    (hbatches : ∀ w, a.executor.answersBatches w = batches)
    (hok : (a.assembleWithStats name world).1 = .ok (doc, stats)) :
    ∃ g, a.catalog.group? name = some g ∧
      stats.Exact a.catalog (a.strategy world) batches g doc := by
  have hends : Ends (a.recorded.assembleWithStats name) ⟨world, []⟩
      (fun result _ => ∃ g, a.catalog.group? name = some g ∧
        result.2.Exact a.catalog (a.strategy world) batches g result.1) fun _ _ => True := by
    apply ends_assembleWithStats
    intro g hname
    have hg := (hc.coherent.group?_eq_some.mp hname).1
    exact (ends_assembleIn_exact hc.coherent hg hbatches).imp fun _ _ h => ⟨g, hname, h⟩
  obtain ⟨_, _, _, hexact⟩ :=
    Recorded.exists_ok (mirrors_assembleWithStats a.mirrors_recorded name) hends hok
  exact hexact

theorem exact_orders : ∃ doc g,
    (batchedOrderAssembler.assembleWithStats "orders" ()).1 = .ok (doc, ⟨3, 1, 4, 5⟩) ∧
      batchedOrderAssembler.catalog.group? "orders" = some g ∧
        Stats.Exact ⟨3, 1, 4, 5⟩ batchedOrderAssembler.catalog .batched true g doc := by
  have hstats : (batchedOrderAssembler.assembleWithStats "orders" ()).1.toOption.map Prod.snd =
      some ⟨3, 1, 4, 5⟩ := by
    cbv
  obtain ⟨⟨doc, _⟩, hresult, rfl⟩ := Option.map_eq_some_iff.mp hstats
  have hok := eq_ok_of_toOption hresult
  have hbatches : ∀ w, batchedOrderAssembler.executor.answersBatches w = true := fun _ => rfl
  obtain ⟨g, hname, hexact⟩ := exact_statistics built_batchedOrderAssembler hbatches hok
  exact ⟨doc, g, hok, hname, hexact⟩

end Assembler

end NestedViews
