import Geospatial.Proofs.Hull.Angle

/-! The places that the scan goes through. Sorted and without repeats, they are one list for all
point lists with the same places; the lowest of them, of several the leftmost, has all others
above it. -/
namespace Geospatial.Hull

variable {K : Type} [Exact K] {p q : Position K} {points : Path K}

theorem then_eq_lt {a b c d : K} :
    (Scalar.order a b).then (Scalar.order c d) = .lt ↔ a < b ∨ a = b ∧ c < d := by
  rw [Ordering.then_eq_lt, Scalar.order_eq_lt, Exact.order_eq_eq, Scalar.order_eq_lt]

theorem byColumn_eq_lt : byColumn p q = .lt ↔ p.x < q.x ∨ p.x = q.x ∧ p.y < q.y := then_eq_lt

theorem byColumn_eq_eq : byColumn p q = .eq ↔ p.x = q.x ∧ p.y = q.y := by
  rw [byColumn, Ordering.then_eq_eq, Exact.order_eq_eq, Exact.order_eq_eq]

theorem byRow_eq_eq : byRow p q = .eq ↔ p.y = q.y ∧ p.x = q.x := by
  rw [byRow, Ordering.then_eq_eq, Exact.order_eq_eq, Exact.order_eq_eq]

theorem byRow_eq_lt : byRow p q = .lt ↔ Above p q := then_eq_lt

theorem column_transOn (first second : Position K → K) :
    Order.TransOn (fun p q : Position K =>
      (Scalar.order (first p) (first q)).then (Scalar.order (second p) (second q)))
      fun _ => True :=
  have key (f : Position K → K) : Order.TransOn (Order.on f Scalar.order) fun _ => True :=
    Scalar.order_transOn.on f fun _ _ => le_rfl
  (key first).lex (key second)

theorem byColumn_transOn : Order.TransOn (byColumn : Position K → Position K → Ordering)
    fun _ => True := column_transOn (·.x) (·.y)

theorem byRow_transOn : Order.TransOn (byRow : Position K → Position K → Ordering)
    fun _ => True := column_transOn (·.y) (·.x)

/-- A point without a height. -/
def Flat (p : Position K) : Prop := p.planar = p

omit [Exact K] in
theorem Flat.ext (hp : Flat p) (hq : Flat q) (hx : p.x = q.x) (hy : p.y = q.y) : p = q := by
  rw [← hp, ← hq, Position.planar_eq_iff]
  exact ⟨hx, hy⟩

section

open Path.withoutRepeats

theorem mem_go {last : Position K} {ps : Path K} (flat : ∀ r ∈ last :: ps, Flat r) :
    p = last ∨ p ∈ go last ps ↔ p = last ∨ p ∈ ps := by
  induction ps generalizing last with
  | nil => rfl
  | cons q ps ih =>
    obtain ⟨hl, hq, hps⟩ : Flat last ∧ Flat q ∧ ∀ r ∈ ps, Flat r := by simpa using flat
    rw [go]
    split
    · rename_i repeated
      obtain ⟨hx, hy⟩ := Position.sameXY_iff.mp repeated
      rw [ih (List.forall_mem_cons.mpr ⟨hl, hps⟩), List.mem_cons, ← hl.ext hq hx hy, or_self_left]
    · rw [List.mem_cons, List.mem_cons, ih (List.forall_mem_cons.mpr ⟨hq, hps⟩)]

theorem pairwise_go {last : Position K} {ps : Path K}
    (sorted : (last :: ps).Pairwise fun p q => (byColumn p q).isLE) :
    (last :: go last ps).Pairwise fun p q => byColumn p q = .lt := by
  induction ps generalizing last with
  | nil => exact List.pairwise_singleton _ _
  | cons q ps ih =>
    obtain ⟨first, rest⟩ := List.pairwise_cons.mp sorted
    rw [go]
    split
    · exact ih (sorted.sublist ((List.sublist_cons_self q ps).cons_cons last))
    · rename_i other
      have less : byColumn last q = .lt := by
        refine (Ordering.isLE_iff_eq_lt_or_eq_eq.mp (first q List.mem_cons_self)).resolve_right ?_
        rw [byColumn_eq_eq, ← Position.sameXY_iff]
        exact other
      have later := ih rest
      refine List.pairwise_cons.mpr ⟨?_, later⟩
      rintro r (_ | ⟨_, hr⟩)
      · exact less
      · have next := (List.pairwise_cons.mp later).1 r hr
        exact byColumn_transOn.lt_of_lt_of_isLE trivial trivial trivial less (by simp [next])

end

/-- The places of the points, each of them once, from left to right. -/
def sites (points : Path K) : Path K :=
  Path.withoutRepeats (Order.sort byColumn (points.map Position.planar))

theorem mem_sites : p ∈ sites points ↔ p ∈ points.map Position.planar := by
  have sorted := Order.sort_perm byColumn (points.map Position.planar)
  rw [sites, ← sorted.mem_iff]
  have flat : ∀ r ∈ Order.sort byColumn (points.map Position.planar), Flat r := by
    intro r hr
    obtain ⟨q, _, rfl⟩ := List.mem_map.mp (sorted.mem_iff.mp hr)
    exact q.planar_planar
  generalize Order.sort byColumn (points.map Position.planar) = ps at flat
  cases ps with
  | nil => rfl
  | cons q ps => rw [Path.withoutRepeats, List.mem_cons, mem_go flat, List.mem_cons]

theorem flat_of_mem_sites (hp : p ∈ sites points) : Flat p := by
  obtain ⟨q, _, rfl⟩ := List.mem_map.mp (mem_sites.mp hp)
  exact q.planar_planar

theorem pairwise_sites (points : Path K) :
    (sites points).Pairwise fun p q => byColumn p q = .lt := by
  have sorted : (Order.sort byColumn (points.map Position.planar)).Pairwise
      fun p q => (byColumn p q).isLE := byColumn_transOn.sort_pairwise fun _ _ => trivial
  rw [sites]
  cases h : Order.sort byColumn (points.map Position.planar) with
  | nil => exact List.Pairwise.nil
  | cons q ps => exact pairwise_go (h ▸ sorted)

theorem nodup_sites (points : Path K) : (sites points).Nodup :=
  (pairwise_sites points).imp fun {p q} less same => by
    rw [same, byColumn_eq_eq.mpr ⟨rfl, rfl⟩] at less
    contradiction

/-- Points with the same places have the same list of sites. -/
theorem sites_congr {points' : Path K}
    (same : ∀ p, p ∈ points.map Position.planar ↔ p ∈ points'.map Position.planar) :
    sites points = sites points' := by
  have perm : (sites points).Perm (sites points') := by
    refine (List.perm_ext_iff_of_nodup (nodup_sites points) (nodup_sites points')).mpr fun p => ?_
    rw [mem_sites, mem_sites, same]
  refine perm.eq_of_pairwise (fun p q _ _ less greater => ?_) (pairwise_sites points)
    (pairwise_sites points')
  rw [byColumn_transOn.swap trivial trivial, greater] at less
  contradiction

/-- The pivot is one of the places, and all others are above it. -/
theorem exists_pivot {ps : Path K} (filled : ps ≠ []) (flat : ∀ p ∈ ps, Flat p)
    (nodup : ps.Nodup) : ∃ pivot others, splitPivot? ps = some (pivot, others) ∧
      (pivot :: others).Perm ps ∧ ∀ q ∈ others, Above pivot q := by
  cases found : Order.least? (Order.on (·.1) byRow) ps.zipIdx with
  | none =>
    rw [Order.least?_eq_none, List.zipIdx_eq_nil_iff] at found
    contradiction
  | some chosen =>
    obtain ⟨pivot, i⟩ := chosen
    have rows : Order.TransOn (Order.on (·.1) byRow) fun _ : Position K × ℕ => True :=
      byRow_transOn.on _ fun _ _ => trivial
    obtain ⟨here, least⟩ := rows.least?_isLE (fun _ _ => trivial) found
    have all : (pivot :: Order.swapRemove i ps).Perm ps :=
      Order.cons_swapRemove_perm (List.mem_zipIdx_iff_getElem?.mp here)
    refine ⟨pivot, _, by rw [splitPivot?, found]; rfl, all, fun q hq => ?_⟩
    have other := (List.nodup_cons.mp (all.nodup_iff.mpr nodup)).1
    have mem {r : Position K} (hr : r ∈ pivot :: Order.swapRemove i ps) : r ∈ ps :=
      all.mem_iff.mp hr
    obtain ⟨j, hj⟩ := List.mem_iff_getElem?.mp (mem (List.mem_cons_of_mem pivot hq))
    have atMost : (byRow pivot q).isLE := least (q, j) (List.mem_zipIdx_iff_getElem?.mpr hj)
    rcases Ordering.isLE_iff_eq_lt_or_eq_eq.mp atMost with less | tied
    · exact byRow_eq_lt.mp less
    · obtain ⟨hy, hx⟩ := byRow_eq_eq.mp tied
      have same := (flat pivot (mem List.mem_cons_self)).ext
        (flat q (mem (List.mem_cons_of_mem pivot hq))) hx hy
      exact absurd (same ▸ hq) other

end Geospatial.Hull
