import Mathlib
import Geospatial.Proofs.Outcome
import Geospatial.ReferenceSystem.Catalogue

/-! Functions with effects that go over the positions of a geometry. Whatever the effects are, they
are those of going over the list of the positions in document order, and the geometry is put
together again in its shape. For functions that may fail, and that may keep a state, this tells
every outcome: the first failure, or the geometry of the same shape with the new positions. -/
namespace Geospatial

/-- Kinds, nesting and lengths of a geometry. -/
inductive Skeleton where
  | point
  | lineString (length : ℕ)
  | polygon (rings : List ℕ)
  | multiPoint (length : ℕ)
  | multiLineString (lines : List ℕ)
  | multiPolygon (polygons : List (List ℕ))
  | collection (members : List Skeleton)

namespace Skeleton

mutual

/-- The number of positions that the skeleton has room for. -/
def size : Skeleton → ℕ
  | .point => 1
  | .lineString n => n
  | .polygon ns => ns.sum
  | .multiPoint n => n
  | .multiLineString ns => ns.sum
  | .multiPolygon nss => (nss.map List.sum).sum
  | .collection members => sizeOfAll members

def sizeOfAll : List Skeleton → ℕ
  | [] => 0
  | s :: members => s.size + sizeOfAll members

end

end Skeleton

namespace Geometry

variable {K : Type}

mutual

/-- What is left of a geometry without its positions. -/
def skeleton : Geometry K → Skeleton
  | .point _ => .point
  | .lineString line => .lineString line.length
  | .polygon rings => .polygon (rings.map List.length)
  | .multiPoint points => .multiPoint points.length
  | .multiLineString lines => .multiLineString (lines.map List.length)
  | .multiPolygon ps => .multiPolygon (ps.map fun rings => rings.map List.length)
  | .collection gs => .collection (skeletons gs)

def skeletons : List (Geometry K) → List Skeleton
  | [] => []
  | g :: gs => g.skeleton :: skeletons gs

end

section Visits

variable {m : Type → Type} [Monad m] {β γ : Type} {f : Position K → m (Position K)}
  {shape : β → γ} {places : β → List (Position K)} {run : β → m β} {b : β}

/-- A run over a part of a geometry keeps its shape and does with its positions, effects included,
what a run of `f` over their list does. -/
def Visits (f : Position K → m (Position K)) (shape : β → γ) (places : β → List (Position K))
    (run : β → m β) (b : β) : Prop :=
  (fun c => (shape c, places c)) <$> run b = (fun ps => (shape b, ps)) <$> (places b).mapM f

section Lawful

variable [LawfulMonad m]

theorem visits_position (p : Position K) : Visits f (fun _ => ()) (fun q => [q]) f p := by
  simp [Visits]

/-- Parts that stand in a row are visited one after the other. -/
theorem Visits.list {bs : List β} (each : ∀ b ∈ bs, Visits f shape places run b) :
    Visits f (List.map shape) (List.flatMap places) (List.mapM run) bs := by
  induction bs with
  | nil => simp [Visits]
  | cons b bs ih =>
    obtain ⟨first, rest⟩ := List.forall_mem_cons.mp each
    calc (fun cs => (cs.map shape, cs.flatMap places)) <$> (b :: bs).mapM run
      _ = (fun c => (shape c, places c)) <$> run b >>= fun x =>
          (fun cs => (cs.map shape, cs.flatMap places)) <$> bs.mapM run >>= fun y =>
            pure (x.1 :: y.1, x.2 ++ y.2) := by simp
      _ = (fun ps => (shape b, ps)) <$> (places b).mapM f >>= fun x =>
          (fun ps => (bs.map shape, ps)) <$> (bs.flatMap places).mapM f >>= fun y =>
            pure (x.1 :: y.1, x.2 ++ y.2) := by rw [first, ih rest]
      _ = (fun ps => ((b :: bs).map shape, ps)) <$> ((b :: bs).flatMap places).mapM f := by
        simp [List.mapM_append]

/-- A part that is made of some content, and whose shape and positions are those of the content, is
visited where the content is. -/
theorem Visits.wrap {δ ε : Type} {outline : δ → ε} {sites : δ → List (Position K)}
    {walk : δ → m δ} (part : β → δ) (cast : γ → ε) (content : Visits f shape places run b)
    (outlines : ∀ c, outline (part c) = cast (shape c)) (same : ∀ c, sites (part c) = places c)
    (walks : walk (part b) = part <$> run b) : Visits f outline sites walk (part b) := by
  calc (fun d => (outline d, sites d)) <$> walk (part b)
    _ = Prod.map cast id <$> (fun c => (shape c, places c)) <$> run b := by
      simp [walks, outlines, same]
    _ = Prod.map cast id <$> (fun ps => (shape b, ps)) <$> (places b).mapM f := by rw [content]
    _ = (fun ps => (outline (part b), ps)) <$> (sites (part b)).mapM f := by
      simp [outlines, same]

theorem visits_path (line : Path K) : Visits f List.length id (List.mapM f) line :=
  (Visits.list fun p _ => visits_position p).wrap id List.length
    (fun _ => (List.length_map _).symm) (fun l => (List.flatMap_singleton' l).symm) (id_map _).symm

theorem visits_rings (rings : List (Path K)) :
    Visits f (List.map List.length) List.flatten (List.mapM (List.mapM f)) rings :=
  (Visits.list fun r _ => visits_path r).wrap id id
    (fun _ => rfl) (fun _ => List.flatMap_id.symm) (id_map _).symm

theorem mapPositionsAllM_eq (f : Position K → m (Position K)) (gs : List (Geometry K)) :
    mapPositionsAllM f gs = gs.mapM (mapPositionsM f) := by
  induction gs with
  | nil => simp [mapPositionsAllM]
  | cons g gs ih => simp [mapPositionsAllM, ih]

theorem skeletons_eq (gs : List (Geometry K)) : skeletons gs = gs.map skeleton := by
  induction gs with
  | nil => rfl
  | cons g gs ih => exact congrArg (_ :: ·) ih

theorem positionsOfAll_eq (gs : List (Geometry K)) :
    positionsOfAll gs = gs.flatMap positions := by
  induction gs with
  | nil => rfl
  | cons g gs ih => exact congrArg (_ ++ ·) ih

end Lawful

mutual

theorem visits [LawfulMonad m] (g : Geometry K) :
    Visits f skeleton positions (mapPositionsM f) g := by
  cases g with
  | point p =>
    exact (visits_position p).wrap Geometry.point (fun _ => .point)
      (fun _ => rfl) (fun _ => rfl) (by simp [mapPositionsM])
  | lineString line =>
    exact (visits_path line).wrap Geometry.lineString Skeleton.lineString
      (fun _ => rfl) (fun _ => rfl) (by simp [mapPositionsM])
  | polygon rings =>
    exact (visits_rings rings).wrap Geometry.polygon Skeleton.polygon
      (fun _ => rfl) (fun _ => rfl) (by simp [mapPositionsM])
  | multiPoint points =>
    exact (visits_path points).wrap Geometry.multiPoint Skeleton.multiPoint
      (fun _ => rfl) (fun _ => rfl) (by simp [mapPositionsM])
  | multiLineString lines =>
    exact (visits_rings lines).wrap Geometry.multiLineString Skeleton.multiLineString
      (fun _ => rfl) (fun _ => rfl) (by simp [mapPositionsM])
  | multiPolygon ps =>
    exact (Visits.list fun rings _ => visits_rings rings).wrap
      Geometry.multiPolygon Skeleton.multiPolygon (fun _ => rfl)
      (fun _ => List.flatten_flatten.trans List.flatMap_def.symm) (by simp [mapPositionsM])
  | collection gs =>
    exact (Visits.list (visits_members gs)).wrap Geometry.collection Skeleton.collection
      (fun gs => congrArg _ (skeletons_eq gs)) positionsOfAll_eq
      (by simp [mapPositionsM, mapPositionsAllM_eq])

theorem visits_members [LawfulMonad m] (gs : List (Geometry K)) :
    ∀ g ∈ gs, Visits f skeleton positions (mapPositionsM f) g := by
  cases gs with
  | nil => nofun
  | cons g gs => exact List.forall_mem_cons.mpr ⟨visits g, visits_members gs⟩

end

end Visits

mutual

theorem length_positions (g : Geometry K) : g.positions.length = g.skeleton.size := by
  cases g with
  | point p => rfl
  | lineString line => rfl
  | polygon rings => exact List.length_flatten
  | multiPoint points => rfl
  | multiLineString lines => exact List.length_flatten
  | multiPolygon ps =>
    simp [positions, skeleton, Skeleton.size, List.length_flatten, Function.comp_def]
  | collection gs => exact length_positionsOfAll gs

theorem length_positionsOfAll (gs : List (Geometry K)) :
    (positionsOfAll gs).length = Skeleton.sizeOfAll (skeletons gs) := by
  cases gs with
  | nil => rfl
  | cons g gs =>
    simp only [positionsOfAll, skeletons, Skeleton.sizeOfAll, List.length_append,
      length_positions g, length_positionsOfAll gs]

end

mutual

/-- A geometry is its skeleton with its positions in their places. -/
theorem eq_of_skeleton_eq {g h : Geometry K} (outline : g.skeleton = h.skeleton)
    (places : g.positions = h.positions) : g = h := by
  cases g <;> cases h <;> try contradiction
  case point => exact congrArg _ (List.singleton_inj.mp places)
  case lineString => exact congrArg _ places
  case polygon =>
    exact congrArg _ (List.eq_iff_flatten_eq.mpr ⟨places, Skeleton.polygon.inj outline⟩)
  case multiPoint => exact congrArg _ places
  case multiLineString =>
    exact congrArg _ (List.eq_iff_flatten_eq.mpr ⟨places, Skeleton.multiLineString.inj outline⟩)
  case multiPolygon ps qs =>
    have outlines := Skeleton.multiPolygon.inj outline
    have counts : ps.map List.length = qs.map List.length := by
      simpa [Function.comp_def] using congrArg (List.map List.length) outlines
    have lengths : ps.flatten.map List.length = qs.flatten.map List.length := by
      rw [List.map_flatten, List.map_flatten, outlines]
    have rings := List.eq_iff_flatten_eq.mpr ⟨places, lengths⟩
    exact congrArg _ (List.eq_iff_flatten_eq.mpr ⟨rings, counts⟩)
  case collection gs hs =>
    exact congrArg _ (eq_of_skeletons_eq (Skeleton.collection.inj outline) places)

theorem eq_of_skeletons_eq {gs hs : List (Geometry K)} (outlines : skeletons gs = skeletons hs)
    (places : positionsOfAll gs = positionsOfAll hs) : gs = hs := by
  cases gs with
  | nil =>
    cases hs with
    | nil => rfl
    | cons h hs => contradiction
  | cons g gs =>
    cases hs with
    | nil => contradiction
    | cons h hs =>
      obtain ⟨first, rest⟩ := List.cons.inj outlines
      have room : g.positions.length = h.positions.length := by
        rw [length_positions, length_positions, first]
      obtain ⟨here, later⟩ := List.append_inj places room
      rw [eq_of_skeleton_eq first here, eq_of_skeletons_eq rest later]

end

/-- An outcome whose shape and positions are those of an outcome for the list of positions. -/
theorem outcome_iff {E : Type} {g : Geometry K} {whole : Except E (Geometry K)}
    {list : Except E (List (Position K))}
    (law : (fun h => (h.skeleton, h.positions)) <$> whole = (fun ps => (g.skeleton, ps)) <$> list) :
    (∀ h, whole = .ok h ↔ h.skeleton = g.skeleton ∧ list = .ok h.positions) ∧
      ∀ e, whole = .error e ↔ list = .error e := by
  cases whole with
  | error d =>
    cases list with
    | error e =>
      obtain rfl := Except.error.inj law
      exact ⟨fun _ => ⟨nofun, fun given => nomatch given.2⟩, fun _ => by simp⟩
    | ok ps => contradiction
  | ok h =>
    cases list with
    | error e => contradiction
    | ok ps =>
      obtain ⟨outline, rfl⟩ := Prod.mk.inj (Except.ok.inj law)
      refine ⟨?_, fun _ => ⟨nofun, nofun⟩⟩
      intro h'
      constructor
      · rintro ⟨⟩
        exact ⟨outline, rfl⟩
      · rintro ⟨outline', given⟩
        exact congrArg _ (eq_of_skeleton_eq (outline.trans outline'.symm) (Except.ok.inj given))

/-- A function that may fail goes over a geometry position by position. -/
theorem mapPositionsM_iff {E : Type} (f : Position K → Except E (Position K)) (g : Geometry K) :
    (∀ h, g.mapPositionsM f = .ok h ↔ h.skeleton = g.skeleton ∧
      List.Forall₂ (fun p q => f p = .ok q) g.positions h.positions) ∧
    (∀ e, g.mapPositionsM f = .error e ↔ ∃ before p after qs, g.positions = before ++ p :: after ∧
      List.Forall₂ (fun p q => f p = .ok q) before qs ∧ f p = .error e) := by
  have law := outcome_iff (visits (f := f) g)
  simpa only [mapM_eq_ok, mapM_eq_error] using law

/-- It fails where it fails at some position. -/
theorem exists_mapPositionsM_eq_error {E : Type} {f : Position K → Except E (Position K)}
    {g : Geometry K} : (∃ e, g.mapPositionsM f = .error e) ↔
      ∃ p ∈ g.positions, ∃ e, f p = .error e := by
  obtain ⟨done, failed⟩ := mapPositionsM_iff f g
  constructor
  · rintro ⟨e, fails⟩
    obtain ⟨before, p, after, qs, split, -, here⟩ := (failed e).mp fails
    exact ⟨p, split ▸ List.mem_append_right before List.mem_cons_self, e, here⟩
  · rintro ⟨p, mem, e, here⟩
    cases result : g.mapPositionsM f with
    | error e => exact ⟨e, rfl⟩
    | ok h =>
      have each := ((done h).mp result).2.imp
        fun p q given => And.intro (Exists.intro q given) given
      obtain ⟨q, given⟩ := ((List.forall₂_and_left _ _).mp each).1 p mem
      rw [here] at given
      contradiction

end Geometry

section Run

variable {σ E α : Type} {f : α → ExceptT E (StateM σ) α} {s t u : σ} {e : E}
  {ps qs before after : List α} {p : α}

/-- The function takes the inputs to the outputs one after the other, each in the state that the
one before it left. -/
inductive Applied (f : α → ExceptT E (StateM σ) α) : σ → List α → List α → σ → Prop where
  | nil {s : σ} : Applied f s [] [] s
  | cons {s t u : σ} {p q : α} {ps qs : List α} :
      (f p).run.run s = (.ok q, t) → Applied f t ps qs u → Applied f s (p :: ps) (q :: qs) u

section Bind

variable {β γ : Type} {x : ExceptT E (StateM σ) β} {k : β → ExceptT E (StateM σ) γ}

theorem run_bind_of_ok {b : β} (first : x.run.run s = (.ok b, t)) :
    (x >>= k).run.run s = (k b).run.run t := by
  rw [ExceptT.run_bind, StateT.run_bind, first]
  rfl

theorem run_bind_of_error (first : x.run.run s = (.error e, t)) :
    (x >>= k).run.run s = (.error e, t) := by
  rw [ExceptT.run_bind, StateT.run_bind, first]
  rfl

theorem run_map {j : β → γ} :
    (j <$> x).run.run s = (j <$> (x.run.run s).1, (x.run.run s).2) := by
  rw [ExceptT.run_map, StateT.run_map]
  rfl

end Bind

theorem run_mapM_of_applied (applied : Applied f s ps qs t) :
    (ps.mapM f).run.run s = (.ok qs, t) := by
  induction applied with
  | nil => rfl
  | cons first _ ih =>
    rw [List.mapM_cons, run_bind_of_ok first, run_bind_of_ok ih]
    rfl

theorem run_mapM_of_stopped (applied : Applied f s before qs t)
    (fails : (f p).run.run t = (.error e, u)) :
    ((before ++ p :: after).mapM f).run.run s = (.error e, u) := by
  rw [List.mapM_append, run_bind_of_ok (run_mapM_of_applied applied)]
  apply run_bind_of_error
  rw [List.mapM_cons, run_bind_of_error fails]

/-- A run over a list comes to its end, or to the first input at which the function fails. -/
theorem applied_or_stopped (f : α → ExceptT E (StateM σ) α) (s : σ) (ps : List α) :
    (∃ qs t, Applied f s ps qs t) ∨
      ∃ before p after qs t e u, ps = before ++ p :: after ∧ Applied f s before qs t ∧
        (f p).run.run t = (.error e, u) := by
  induction ps generalizing s with
  | nil => exact .inl ⟨[], s, .nil⟩
  | cons p ps ih =>
    match first : (f p).run.run s with
    | (.error e, u) => exact .inr ⟨[], p, ps, [], s, e, u, rfl, .nil, first⟩
    | (.ok q, t) =>
      obtain ⟨qs, u, rest⟩ | ⟨before, p', after, qs, u, e, v, rfl, rest, fails⟩ := ih t
      · exact .inl ⟨q :: qs, u, .cons first rest⟩
      · exact .inr ⟨p :: before, p', after, q :: qs, u, e, v, rfl, .cons first rest, fails⟩

theorem run_mapM_eq_ok : (ps.mapM f).run.run s = (.ok qs, t) ↔ Applied f s ps qs t := by
  refine ⟨fun ran => ?_, run_mapM_of_applied⟩
  obtain ⟨qs', t', applied⟩ | ⟨before, p, after, qs', t', e, u, rfl, applied, fails⟩ :=
    applied_or_stopped f s ps
  · obtain ⟨same, rfl⟩ := Prod.mk.inj ((run_mapM_of_applied applied).symm.trans ran)
    exact Except.ok.inj same ▸ applied
  · cases (run_mapM_of_stopped applied fails).symm.trans ran

theorem run_mapM_eq_error : (ps.mapM f).run.run s = (.error e, u) ↔
    ∃ before p after qs t, ps = before ++ p :: after ∧ Applied f s before qs t ∧
      (f p).run.run t = (.error e, u) := by
  constructor
  · intro ran
    obtain ⟨qs', t', applied⟩ | ⟨before, p, after, qs', t', e', u', rfl, applied, fails⟩ :=
      applied_or_stopped f s ps
    · cases (run_mapM_of_applied applied).symm.trans ran
    · cases (run_mapM_of_stopped applied fails).symm.trans ran
      exact ⟨before, p, after, qs', t', rfl, applied, fails⟩
  · rintro ⟨before, p, after, qs, t, rfl, applied, fails⟩
    exact run_mapM_of_stopped applied fails

/-- A run over a geometry is a run over its positions in document order. -/
theorem run_mapPositionsM {K : Type} (f : Position K → ExceptT E (StateM σ) (Position K))
    (g : Geometry K) (s : σ) :
    (∀ h t, (g.mapPositionsM f).run.run s = (.ok h, t) ↔
      h.skeleton = g.skeleton ∧ (g.positions.mapM f).run.run s = (.ok h.positions, t)) ∧
    (∀ e t, (g.mapPositionsM f).run.run s = (.error e, t) ↔
      (g.positions.mapM f).run.run s = (.error e, t)) := by
  have law := congrArg (fun x => x.run.run s) (Geometry.visits (f := f) g)
  simp only [run_map] at law
  generalize (g.mapPositionsM f).run.run s = whole at law ⊢
  generalize (g.positions.mapM f).run.run s = list at law ⊢
  obtain ⟨whole, t⟩ := whole
  obtain ⟨list, u⟩ := list
  obtain ⟨outcome, rfl⟩ := Prod.mk.inj law
  obtain ⟨done, failed⟩ := Geometry.outcome_iff outcome
  refine ⟨fun h v => ⟨?_, ?_⟩, fun e v => ⟨?_, ?_⟩⟩
  · rintro ⟨⟩
    exact ((done h).mp rfl).imp_right (congrArg (·, t))
  · rintro ⟨outline, ⟨⟩⟩
    exact congrArg (·, t) ((done h).mpr ⟨outline, rfl⟩)
  · rintro ⟨⟩
    exact congrArg (·, t) ((failed e).mp rfl)
  · rintro ⟨⟩
    exact congrArg (·, t) ((failed e).mpr rfl)

end Run

section Conversion

variable {K : Type} [Scalar K] {c : Catalogue K} {source target : String} {s t : ReferenceSystem K}

theorem Catalogue.convert_eq (out : c.get source = .ok s) (into : c.get target = .ok t)
    (different : s.code ≠ t.code) (p : Position K) :
    c.convert p source target = s.toWgs84 p >>= t.ofWgs84 := by
  calc c.convert p source target
    _ = s.convert t p := by
      simp only [convert, out, into]
      rfl
    _ = s.toWgs84 p >>= t.ofWgs84 := if_neg different

theorem Catalogue.convertGeometry_eq (out : c.get source = .ok s) (into : c.get target = .ok t)
    (g : Geometry K) : c.convertGeometry g source target =
      g.mapPositionsM fun p => c.convert p source target := by
  simp only [convertGeometry, convert, out, into]
  rfl

end Conversion

/-- A function that may fail, and that may keep a state, is applied to the positions of a geometry
in document order and to none after the first at which it fails. What comes out is that failure, or
the geometry of the same kinds, nesting and lengths whose positions are those it gave. So a
conversion between two systems of a catalogue converts position by position and fails where some
position fails. -/
theorem mapPositionsM_in_order {K σ E : Type} [Scalar K]
    (f : Position K → ExceptT E (StateM σ) (Position K)) (g : Geometry K) (start : σ) :
    (∀ h s, (g.mapPositionsM f).run.run start = (.ok h, s) ↔
      h.skeleton = g.skeleton ∧ Applied f start g.positions h.positions s) ∧
    (∀ e s, (g.mapPositionsM f).run.run start = (.error e, s) ↔
      ∃ before p after qs t, g.positions = before ++ p :: after ∧ Applied f start before qs t ∧
        (f p).run.run t = (.error e, s)) ∧
    ∀ (c : Catalogue K) (source target : String) (s t : ReferenceSystem K),
      c.get source = .ok s → c.get target = .ok t → s.code ≠ t.code →
      (∀ p, c.convert p source target = s.toWgs84 p >>= t.ofWgs84) ∧
      (∀ h, c.convertGeometry g source target = .ok h ↔ h.skeleton = g.skeleton ∧
        List.Forall₂ (fun p q => c.convert p source target = .ok q) g.positions h.positions) ∧
      (∀ e, c.convertGeometry g source target = .error e ↔
        ∃ before p after qs, g.positions = before ++ p :: after ∧
          List.Forall₂ (fun p q => c.convert p source target = .ok q) before qs ∧
          c.convert p source target = .error e) ∧
      ((∃ e, c.convertGeometry g source target = .error e) ↔
        ∃ p ∈ g.positions, ∃ e, c.convert p source target = .error e) := by
  obtain ⟨done, failed⟩ := run_mapPositionsM f g start
  simp only [run_mapM_eq_ok] at done
  simp only [run_mapM_eq_error] at failed
  refine ⟨done, failed, ?_⟩
  intro c source target s t out into different
  rw [Catalogue.convertGeometry_eq out into]
  obtain ⟨converted, refused⟩ := Geometry.mapPositionsM_iff (c.convert · source target) g
  exact ⟨Catalogue.convert_eq out into different, converted, refused,
    Geometry.exists_mapPositionsM_eq_error⟩

/-- A count of the calls, which stop at the second of three positions, and a conversion that stops
there as well. -/
theorem mapPositionsM_in_order_collection :
    let swap (p : Position Float) : ExceptT String (StateM ℕ) (Position Float) := do
      modify (· + 1)
      match p.z with
      | none => return ⟨p.y, p.x, none⟩
      | some _ => throw "height"
    let g : Geometry Float := .collection [.multiPoint [⟨1, 2, none⟩, ⟨0, 95, some 7⟩],
      .collection [.point ⟨3, 4, none⟩]]
    let s : ReferenceSystem Float :=
      { projection := .geographic, datum := .wgs84, axisUnit := .degrees, code := 1,
        name := "first", text := "" }
    let c : Catalogue Float := ⟨[s, { s with code := 2, name := "second" }]⟩
    (g.mapPositionsM swap).run.run 0 = (.error "height", 2) ∧
      ∃ e, c.convertGeometry g "1" "2" = .error e := by
  intro swap g s c
  obtain ⟨-, failed, conversion⟩ := mapPositionsM_in_order swap g 0
  obtain ⟨-, -, -, fails⟩ := conversion c "1" "2" s { s with code := 2, name := "second" }
    rfl rfl (by decide)
  constructor
  · exact (failed "height" 2).mpr ⟨[⟨1, 2, none⟩], ⟨0, 95, some 7⟩, [⟨3, 4, none⟩],
      [⟨2, 1, none⟩], 1, rfl, .cons rfl .nil, rfl⟩
  · refine fails.mpr ⟨⟨0, 95, some 7⟩, List.mem_cons_of_mem _ List.mem_cons_self, ?_⟩
    cases result : c.convert ⟨0, 95, some 7⟩ "1" "2" with
    | error e => exact ⟨e, rfl⟩
    | ok q =>
      have refused : (c.convert ⟨0, 95, some 7⟩ "1" "2").toOption.isSome = false := by decide +kernel
      rw [result] at refused
      contradiction

end Geospatial
