import Geospatial.Proofs.Index.Run
import Geospatial.Proofs.Scalar.Double

/-! The shape of the tree after any run. Boxes are compared numerically on their planar sides,
since the two zeros may stand for each other; heights take no part. -/
namespace Geospatial.Index

variable {K α : Type}

namespace Node

/-- The node `m` lies `k` levels below `n`. -/
inductive Below : Nat → Node K α → Node K α → Prop where
  | self : Below 0 n n
  | child {b : Bounds K} {c m : Node K α} {cs : List (Node K α)} :
      c ∈ cs → Below k c m → Below (k + 1) (.branch b cs) m

/-- The boxes of the entries or children of a node. -/
def boxes : Node K α → List (Bounds K)
  | leaf _ es => es.map (·.bounds)
  | branch _ cs => cs.map bounds

variable [Scalar K] {most fewest h k : Nat} {n m : Node K α}

/-- A subtree of a well-formed tree is well-formed, and full enough unless it is the whole. -/
theorem Below.wellFormed (below : Below k n m) (wf : n.WellFormed most fewest h) :
    ∃ i, i + k = h ∧ m.WellFormed most fewest i ∧ (k ≠ 0 → fewest ≤ m.fill) := by
  induction below generalizing h with
  | self => exact ⟨h, rfl, wf, fun inner => absurd rfl inner⟩
  | @child k b c m cs hc below ih =>
    cases wf with
    | @branch _ h _ _ fill wf _ =>
      obtain ⟨i, level, wfBelow, full⟩ := ih (wf c hc)
      refine ⟨i, by omega, wfBelow, fun _ => ?_⟩
      cases below with
      | self => exact fill c hc
      | child => exact full (Nat.succ_ne_zero _)

theorem WellFormed.height_pos (wf : n.WellFormed most fewest h) : 0 < h := by
  cases wf <;> exact Nat.succ_pos _

theorem WellFormed.two_le_height {b : Bounds K} {cs : List (Node K α)}
    (wf : (Node.branch b cs).WellFormed most fewest h) : 2 ≤ h := by
  have nonempty : 0 < cs.length := wf.fill_pos
  cases wf with
  | branch _ _ wf _ =>
    have below := (wf cs[0] (List.getElem_mem nonempty)).height_pos
    omega

theorem WellFormed.height_leaf {b : Bounds K} {es : List (Entry K α)}
    (wf : (Node.leaf b es).WellFormed most fewest h) : h = 1 := by
  cases wf
  rfl

variable [Scalar.LawfulOrder K]

/-- The box of a node is the one that uniting the boxes directly below it gives. -/
theorem WellFormed.box (wf : n.WellFormed most fewest h) :
    ∃ u ∈ Bounds.unionAll? n.boxes, n.bounds.samePlanar u = true := by
  cases wf with
  | leaf _ finite least => exact least.exists_unionAll? (contains_self_of_finite finite)
  | branch _ _ wf least => exact least.exists_unionAll? (contains_self_of_wellFormed wf)

end Node

variable [Scalar K] [Bounded K α]

/-- A balanced tree within its limits, with least boxes and counts that agree with the items. -/
structure Balanced (t : Index K α) : Prop where
  box : ∀ root ∈ t.root, ∀ k m, Node.Below k root m →
    ∃ u ∈ Bounds.unionAll? m.boxes, m.bounds.samePlanar u = true
  bounds? : Option.Rel (fun b u => b.samePlanar u = true) t.bounds?
    (Bounds.unionAll? (t.toList.filterMap Bounded.bounds?))
  bounds?_eq_none : t.bounds? = none ↔ t.toList = []
  most : ∀ root ∈ t.root, ∀ k m, Node.Below k root m → m.fill ≤ t.capacity
  fewest : ∀ root ∈ t.root, ∀ k m, Node.Below k root m → k ≠ 0 → t.leastFill ≤ m.fill
  fork : ∀ b cs, t.root = some (.branch b cs) → 2 ≤ cs.length
  depth : ∀ root ∈ t.root, ∀ k b es, Node.Below k root (.leaf b es) → t.stats.depth = k + 1
  count : t.stats.items = t.toList.length

variable [Scalar.LawfulOrder K]

namespace Sound

variable {t : Index K α}

omit [Scalar.LawfulOrder K] in
/-- Entries are stored under the boxes of their items. -/
theorem filterMap_bounds? (sound : t.Sound) :
    t.toList.filterMap Bounded.bounds? = t.entries.map Entry.bounds := by
  rw [toList, List.filterMap_map, ← List.filterMap_eq_map]
  apply List.filterMap_congr
  intro e he
  apply sound.boxes e
  rw [contents_root]
  exact Multiset.mem_coe.mpr he

theorem unionAll (sound : t.Sound) : Option.Rel (fun b u => b.samePlanar u = true) t.bounds?
    (Bounds.unionAll? (t.toList.filterMap Bounded.bounds?)) := by
  rw [sound.filterMap_bounds?, bounds?, entries]
  cases here : t.root with
  | none => exact .none
  | some root =>
    obtain ⟨h, wf, _⟩ := sound.rooted root here
    have least := wf.leastOver
    rw [Node.contents, Multiset.map_coe] at least
    obtain ⟨u, united, same⟩ := least.exists_unionAll? (Node.contains_self_of_finite wf.finite)
    rw [Option.map_some, Option.map_some, Option.getD_some, united]
    exact .some same

theorem balanced (sound : t.Sound) : t.Balanced where
  box root here k m below := by
    obtain ⟨h, wf, _⟩ := sound.rooted root here
    obtain ⟨i, _, wfBelow, _⟩ := below.wellFormed wf
    exact wfBelow.box
  bounds? := sound.unionAll
  bounds?_eq_none := by
    have united := sound.unionAll
    rw [sound.filterMap_bounds?] at united
    rw [toList, List.map_eq_nil_iff]
    constructor
    · intro nothing
      rw [nothing] at united
      cases united' : Bounds.unionAll? (t.entries.map Entry.bounds) with
      | none => exact List.map_eq_nil_iff.mp (Bounds.unionAll?_eq_none.mp united')
      | some u =>
        rw [united'] at united
        contradiction
    · intro nothing
      rw [nothing] at united
      cases box : t.bounds? with
      | none => rfl
      | some b =>
        rw [box] at united
        contradiction
  most root here k m below := by
    obtain ⟨h, wf, _⟩ := sound.rooted root here
    obtain ⟨i, _, wfBelow, _⟩ := below.wellFormed wf
    exact wfBelow.fill_le
  fewest root here k m below inner := by
    obtain ⟨h, wf, _⟩ := sound.rooted root here
    obtain ⟨i, _, _, full⟩ := below.wellFormed wf
    exact full inner
  fork b cs here := by
    obtain ⟨h, wf, forks⟩ := sound.rooted _ here
    have high := wf.two_le_height
    rcases forks with low | two
    · omega
    · exact two
  depth root here k b es below := by
    obtain ⟨h, wf, _⟩ := sound.rooted root here
    obtain ⟨i, level, wfBelow, _⟩ := below.wellFormed wf
    obtain rfl := wfBelow.height_leaf
    rw [stats, here]
    exact wf.depth_eq.trans (level.symm.trans (Nat.add_comm 1 k))
  count := by
    have size := sound.size
    rw [stats]
    cases here : t.root with
    | none => simp [toList, entries, here]
    | some root => exact size

end Sound

/-- After every run the tree is balanced. -/
theorem run_balanced [BEq α] {t₀ : Index K α} (initial : Initial t₀) (cs : List (Command α)) :
    (t₀.run cs).Balanced :=
  (initial.sound.run cs).balanced

/-- Six points below a root with two leaves; after three removals one leaf holds what is left. -/
theorem run_balanced_points :
    let s : Settings Float := { Settings.default with nodeCapacity := 3, leastFill := 2 }
    let t₀ : Index Float (Position Float) := ⟨none, 0, s.nodeCapacity, s.leastFill⟩
    let filled := .insertMany
      [⟨0, 0, none⟩, ⟨4, 1, none⟩, ⟨8, 2, none⟩, ⟨1, 5, none⟩, ⟨5, 6, none⟩, ⟨9, 7, none⟩]
    let removals := [.remove ⟨0, 0, none⟩, .remove ⟨4, 1, none⟩, .remove ⟨1, 5, none⟩]
    Initial t₀ ∧ (t₀.run [filled]).stats.depth = 2 ∧
      (t₀.run (filled :: removals)).stats.depth = 1 ∧ (t₀.run (filled :: removals)).Balanced := by
  intro s t₀ filled removals
  have initial : Initial t₀ :=
    initial_of_check (Settings.check_eq_ok_iff.mpr (by decide +kernel))
  exact ⟨initial, by decide +kernel, by decide +kernel, run_balanced initial _⟩

end Geospatial.Index
