import OsmMini.Apple.PoiLayout

/-!
# Groups of places, in any order of the tiles

The markers of the places that are kept are apart from each other, and every place is near its
marker (`Built.spaced`, `Built.near`). Places of one source or name at one position follow each
other, and a place joins the marker of the place before it if both have the same position. So they
form one group, and which markers there are depends only on the sources, names and positions
(`Built.shapes`).

Tiles that come in another order lead to the same markers with the same places, up to repeats of
one source at one position (`markers_grouped`). If the repeats are not alike, the first one is
kept, and that depends on the order; and of markers that are equally near, the first one cell by
cell is chosen, which need not be the oldest (`markers_of_copies`).
-/

set_option autoImplicit false

namespace OsmMini.Apple.OfflineMapPOILayout

open Foundations

/-! ## Lists that correspond -/

section Corresponding

variable {α β : Type*} {R : α → β → Prop} {l : List α} {l' : List β}

theorem forall₂_modify {f : α → α} {g : β → β} (kept : ∀ a b, R a b → R (f a) (g b)) (i : ℕ)
    (related : List.Forall₂ R l l') : List.Forall₂ R (l.modify i f) (l'.modify i g) := by
  induction related generalizing i with
  | nil =>
      rw [List.modify_nil, List.modify_nil]
      exact List.Forall₂.nil
  | cons here rest ih =>
      cases i with
      | zero => exact List.Forall₂.cons (kept _ _ here) rest
      | succ i => exact List.Forall₂.cons here (ih i)

theorem exists_of_forall₂ (related : List.Forall₂ R l l') {b : β} (member : b ∈ l') :
    ∃ a ∈ l, R a b := by
  induction related with
  | nil => cases member
  | cons here rest ih =>
      rcases List.mem_cons.mp member with rfl | later
      · exact ⟨_, List.mem_cons_self, here⟩
      · obtain ⟨a, known, related⟩ := ih later
        exact ⟨a, List.mem_cons_of_mem _ known, related⟩

theorem pairwise_of_forall₂ {P : α → α → Prop} {Q : β → β → Prop}
    (meets : ∀ a a' b b', R a b → R a' b' → P a a' → Q b b') (related : List.Forall₂ R l l')
    (pairwise : l.Pairwise P) : l'.Pairwise Q := by
  induction related with
  | nil => exact List.Pairwise.nil
  | cons here rest ih =>
      obtain ⟨first, pairwise⟩ := List.pairwise_cons.mp pairwise
      refine List.Pairwise.cons (fun b member => ?_) (ih pairwise)
      obtain ⟨a, known, related⟩ := exists_of_forall₂ rest member
      exact meets _ _ _ _ here related (first a known)

/-- Two lists that correspond to one list correspond to each other. -/
theorem forall₂_of_common {γ : Type*} {S : α → γ → Prop} {T : β → γ → Prop} {l'' : List γ}
    (meets : ∀ a b c, R a b → S a c → T b c) (related : List.Forall₂ R l l')
    (related' : List.Forall₂ S l l'') : List.Forall₂ T l' l'' := by
  induction related generalizing l'' with
  | nil =>
      cases related'
      exact List.Forall₂.nil
  | cons here rest ih =>
      cases related' with
      | cons here' rest' => exact List.Forall₂.cons (meets _ _ _ here here') (ih rest')

end Corresponding

/-! ## What joining keeps -/

section Built

variable {K Text Details : Type} [Field K] [LinearOrder K] [FloorRing K]

/-- What a place changes. -/
theorem Joins.cases {result result' : List (Marker K Text Details)}
    {candidate : Member K Text Details} (joins : Joins result candidate result') :
    (∃ before marker after, result = before ++ marker :: after ∧
      squaredDistance marker.point candidate.point < spacing * spacing ∧
      result' = before ++ { marker with members := marker.members ++ [candidate] } :: after) ∨
    (∀ marker ∈ result, spacing * spacing ≤ squaredDistance marker.point candidate.point) ∧
      result' = result ++ [⟨candidate.feature, candidate.point, [candidate]⟩] := by
  obtain ⟨o, found, rfl⟩ := joins
  cases o with
  | none =>
      refine Or.inr ⟨fun marker member => ?_, rfl⟩
      exact found marker.point (List.mem_map_of_mem member)
  | some i =>
      obtain ⟨p, isP, near, -⟩ := found
      rw [List.getElem?_map] at isP
      obtain ⟨marker, isMarker, rfl⟩ := Option.map_eq_some_iff.mp isP
      obtain ⟨before, marker', after, rfl, isPlace, modified⟩ := List.exists_of_modify
        (fun marker : Marker K Text Details =>
          { marker with members := marker.members ++ [candidate] })
        (List.getElem?_eq_some_iff.mp isMarker).1
      rw [List.getElem?_append_right isPlace.le, isPlace, Nat.sub_self,
        List.getElem?_cons_zero] at isMarker
      obtain rfl := Option.some.inj isMarker
      exact Or.inl ⟨before, marker', after, rfl, near, modified⟩

variable {l : List (Member K Text Details)} {result : List (Marker K Text Details)}

/-- **Every place that is kept is a member of one marker.** -/
theorem Built.perm (built : Built l result) : (result.flatMap Marker.members).Perm l := by
  induction built with
  | nil => exact List.Perm.nil
  | @snoc l result result' candidate built joins ih =>
      rcases joins.cases with ⟨before, marker, after, rfl, -, rfl⟩ | ⟨-, rfl⟩
      · refine List.Perm.trans ?_ (ih.append_right [candidate])
        simp only [List.flatMap_append, List.flatMap_cons, List.append_assoc]
        exact (List.perm_append_comm.append_left marker.members).append_left _
      · rw [List.flatMap_append, List.flatMap_singleton]
        exact ih.append_right [candidate]

/-- **Markers are apart from each other.** -/
theorem Built.spaced (built : Built l result) :
    result.Pairwise fun a b => spacing * spacing ≤ squaredDistance a.point b.point := by
  induction built with
  | nil => exact List.Pairwise.nil
  | @snoc l result result' candidate built joins ih =>
      rcases joins.cases with ⟨before, marker, after, rfl, -, rfl⟩ | ⟨far, rfl⟩
      · rw [List.pairwise_append, List.pairwise_cons] at ih ⊢
        obtain ⟨first, ⟨here, last⟩, across⟩ := ih
        refine ⟨first, ⟨here, last⟩, fun a inside b inside' => ?_⟩
        rcases List.mem_cons.mp inside' with rfl | later
        · exact across a inside marker List.mem_cons_self
        · exact across a inside b (List.mem_cons_of_mem _ later)
      · rw [List.pairwise_append]
        refine ⟨ih, List.pairwise_singleton _ _, fun a inside b inside' => ?_⟩
        rw [List.mem_singleton.mp inside']
        exact far a inside

/-- What every marker keeps when places join. -/
theorem Built.forall_marker (holds : List (Member K Text Details) → Marker K Text Details → Prop)
    (other : ∀ l candidate marker, holds l marker → holds (l ++ [candidate]) marker)
    (joined : ∀ l candidate marker, holds l marker →
      squaredDistance marker.point candidate.point < spacing * spacing →
      holds (l ++ [candidate]) { marker with members := marker.members ++ [candidate] })
    (new : ∀ l candidate,
      holds (l ++ [candidate]) ⟨candidate.feature, candidate.point, [candidate]⟩)
    (built : Built l result) : ∀ marker ∈ result, holds l marker := by
  induction built with
  | nil =>
      intro marker member
      cases member
  | @snoc l result result' candidate built joins ih =>
      intro m member
      rcases joins.cases with ⟨before, marker, after, rfl, near, rfl⟩ | ⟨-, rfl⟩
      · rcases List.mem_append.mp member with early | here
        · exact other l candidate m (ih m (List.mem_append_left _ early))
        · rcases List.mem_cons.mp here with rfl | later
          · exact joined l candidate marker
              (ih marker (List.mem_append_right _ List.mem_cons_self)) near
          · exact other l candidate m
              (ih m (List.mem_append_right _ (List.mem_cons_of_mem _ later)))
      · rcases List.mem_append.mp member with old | here
        · exact other l candidate m (ih m old)
        · rw [List.mem_singleton.mp here]
          exact new l candidate

/-- The members of a marker come in the order of the places. -/
theorem Built.sublist (built : Built l result) :
    ∀ marker ∈ result, marker.members.Sublist l := by
  refine Built.forall_marker (fun l marker => marker.members.Sublist l) ?_ ?_ ?_ built
  · intro l candidate marker sublist
    exact sublist.trans (List.sublist_append_left l [candidate])
  · intro l candidate marker sublist _
    exact sublist.append (List.Sublist.refl [candidate])
  · intro l candidate
    exact List.sublist_append_right l [candidate]

/-- A marker is its first member. -/
theorem Built.first (built : Built l result) :
    ∀ marker ∈ result, marker.members.head? = some ⟨marker.feature, marker.point⟩ := by
  refine Built.forall_marker
    (fun _ marker => marker.members.head? = some ⟨marker.feature, marker.point⟩) ?_ ?_ ?_ built
  · intro _ _ marker first
    exact first
  · intro _ candidate marker first _
    rw [List.head?_append, first, Option.some_or]
  · intro _ candidate
    rfl

variable [IsStrictOrderedRing K]

/-- **Every place is near its marker.** -/
theorem Built.near (built : Built l result) : ∀ marker ∈ result, ∀ m ∈ marker.members,
    squaredDistance marker.point m.point < spacing * spacing := by
  refine Built.forall_marker (fun _ marker => ∀ m ∈ marker.members,
    squaredDistance marker.point m.point < spacing * spacing) ?_ ?_ ?_ built
  · intro _ _ marker near
    exact near
  · intro _ candidate marker near joined m member
    rcases List.mem_append.mp member with old | new
    · exact near m old
    · rw [List.mem_singleton.mp new]
      exact joined
  · intro _ candidate m member
    rw [List.mem_singleton.mp member]
    have width : (0 : K) < spacing := by norm_num [spacing]
    rw [squaredDistance, sub_self, sub_self, mul_zero, add_zero]
    exact mul_pos width width

/-! ## Places at one position -/

/-- Add several places of one position to a marker, or as a marker of their own. -/
def joinAll (result : List (Marker K Text Details)) (places : List (Member K Text Details)) :
    Option ℕ → List (Marker K Text Details)
  | some closest =>
    result.modify closest fun marker => { marker with members := marker.members ++ places }
  | none =>
    match places with
    | [] => result
    | first :: _ => result ++ [⟨first.feature, first.point, places⟩]

omit [IsStrictOrderedRing K] in
theorem Built.of_concat {candidate : Member K Text Details}
    (built : Built (l ++ [candidate]) result) :
    ∃ before, Built l before ∧ Joins before candidate result := by
  generalize places : l ++ [candidate] = l' at built
  cases built with
  | nil => exact absurd places (by simp)
  | snoc built joins =>
      obtain ⟨rfl, same⟩ := List.append_inj' places rfl
      obtain rfl := List.singleton_inj.mp same
      exact ⟨_, built, joins⟩

/-- A new marker is the closest one of its own position. -/
theorem closest_self {points : List (K × K)} {p : K × K} (none : Closest points p none) :
    Closest (points ++ [p]) p (some points.length) := by
  have width : (0 : K) < spacing * spacing := by norm_num [spacing]
  have here : squaredDistance p p = 0 := by
    rw [squaredDistance, sub_self, sub_self, mul_zero, add_zero]
  refine ⟨p, by simp, here.trans_lt width, fun j q isQ => ?_⟩
  rw [scanRank, scanRank, Prod.Lex.toLex_le_toLex, here]
  rcases Nat.lt_or_ge j points.length with old | new
  · rw [List.getElem?_append_left old] at isQ
    exact Or.inl (width.trans_le (none q (List.mem_of_getElem? isQ)))
  · rw [List.getElem?_append_right new, List.getElem?_singleton] at isQ
    split_ifs at isQ with last
    obtain rfl := Option.some.inj isQ
    rw [here, Nat.le_antisymm (Nat.sub_eq_zero_iff_le.mp last) new]
    exact Or.inr ⟨rfl, le_refl _⟩

omit [Field K] [LinearOrder K] [FloorRing K] [IsStrictOrderedRing K] in
theorem joinAll_some_points (result : List (Marker K Text Details))
    (places : List (Member K Text Details)) (i : ℕ) :
    (joinAll result places (some i)).map Marker.point = result.map Marker.point := by
  apply List.ext_getElem?
  intro j
  rw [joinAll, List.getElem?_map, List.getElem?_map, List.getElem?_modify]
  cases result[j]? with
  | none => rfl
  | some m =>
      by_cases same : i = j
      · simp [same]
      · simp [same]

omit [Field K] [LinearOrder K] [FloorRing K] [IsStrictOrderedRing K] in
theorem join_joinAll_some (result : List (Marker K Text Details))
    (places : List (Member K Text Details)) (c : Member K Text Details) (i : ℕ) :
    join (joinAll result places (some i)) c (some i) =
      joinAll result (places ++ [c]) (some i) := by
  rw [join, joinAll, joinAll, List.modify_modify_eq]
  congr 1
  funext marker
  rw [Function.comp_apply, List.append_assoc]

omit [Field K] [LinearOrder K] [FloorRing K] [IsStrictOrderedRing K] in
theorem join_new (result : List (Marker K Text Details)) (marker : Marker K Text Details)
    (c : Member K Text Details) :
    join (result ++ [marker]) c (some result.length) =
      result ++ [{ marker with members := marker.members ++ [c] }] := by
  rw [join, List.modify_eq_take_cons_drop (by simp)]
  simp

/-- **Places of one position that follow each other join one marker.** -/
theorem Built.of_append {places : List (Member K Text Details)} {p : K × K}
    (some : places ≠ []) (alike : ∀ c ∈ places, c.point = p)
    (built : Built (l ++ places) result) :
    ∃ before o, Built l before ∧ Closest (before.map Marker.point) p o ∧
      result = joinAll before places o := by
  induction places using List.reverseRecOn generalizing result with
  | nil => exact absurd rfl some
  | append_singleton places c ih =>
      rw [← List.append_assoc] at built
      obtain ⟨middle, known, o', found', rfl⟩ := built.of_concat
      have isPoint : c.point = p := alike c (List.mem_append_right _ (List.mem_singleton_self c))
      rw [isPoint] at found'
      cases places with
      | nil =>
          rw [List.append_nil] at known
          refine ⟨middle, o', known, found', ?_⟩
          cases o' with
          | none => rfl
          | some i => rfl
      | cons first rest =>
          obtain ⟨before, o, early, found, rfl⟩ := ih (List.cons_ne_nil first rest)
            (fun c member => alike c (List.mem_append_left _ member)) known
          refine ⟨before, o, early, found, ?_⟩
          cases o with
          | some i =>
              rw [joinAll_some_points] at found'
              rw [found'.unique found, join_joinAll_some]
          | none =>
              have isFirst : first.point = p :=
                alike first (List.mem_append_left _ List.mem_cons_self)
              have points : (joinAll before (first :: rest) none).map Marker.point =
                  before.map Marker.point ++ [p] := by
                rw [joinAll, List.map_append, List.map_singleton, isFirst]
              rw [points] at found'
              rw [found'.unique (closest_self found), List.length_map, joinAll, join_new]
              rfl

/-! ## Shapes -/

/-- A marker at a position, with the places of some ranks, rank by rank. -/
structure Shaped (places : Text ×ₗ K ×ₗ K → List (Member K Text Details))
    (shape : (K × K) × List (Text ×ₗ K ×ₗ K)) (marker : Marker K Text Details) : Prop where
  point : marker.point = shape.1
  members : marker.members = shape.2.flatMap places

/-- Places under their ranks. -/
structure Ranked (ranks : List (Text ×ₗ K ×ₗ K))
    (places : Text ×ₗ K ×ₗ K → List (Member K Text Details)) : Prop where
  nonempty : ∀ rank ∈ ranks, places rank ≠ []
  point : ∀ rank ∈ ranks, ∀ c ∈ places rank, c.point = ofLex (ofLex rank).2

omit [Field K] [LinearOrder K] [FloorRing K] [IsStrictOrderedRing K] in
theorem map_point_of_shaped {places : Text ×ₗ K ×ₗ K → List (Member K Text Details)}
    {shapes : List ((K × K) × List (Text ×ₗ K ×ₗ K))} {result : List (Marker K Text Details)}
    (shaped : List.Forall₂ (Shaped places) shapes result) :
    result.map Marker.point = shapes.map Prod.fst := by
  induction shaped with
  | nil => rfl
  | cons here rest ih => rw [List.map_cons, List.map_cons, ih, here.point]

/-- Add the places of a rank. -/
def joinShape (shapes : List ((K × K) × List (Text ×ₗ K ×ₗ K))) (rank : Text ×ₗ K ×ₗ K) :
    Option ℕ → List ((K × K) × List (Text ×ₗ K ×ₗ K))
  | some closest => shapes.modify closest fun shape => (shape.1, shape.2 ++ [rank])
  | none => shapes ++ [(ofLex (ofLex rank).2, [rank])]

omit [Field K] [LinearOrder K] [FloorRing K] [IsStrictOrderedRing K] in
theorem joinAll_shaped {places : Text ×ₗ K ×ₗ K → List (Member K Text Details)}
    {shapes : List ((K × K) × List (Text ×ₗ K ×ₗ K))} {result : List (Marker K Text Details)}
    (shaped : List.Forall₂ (Shaped places) shapes result) {rank : Text ×ₗ K ×ₗ K}
    (nonempty : places rank ≠ []) (alike : ∀ c ∈ places rank, c.point = ofLex (ofLex rank).2)
    (o : Option ℕ) :
    List.Forall₂ (Shaped places) (joinShape shapes rank o) (joinAll result (places rank) o) := by
  cases o with
  | some i =>
      refine forall₂_modify ?_ i shaped
      rintro shape marker ⟨isPoint, isMembers⟩
      refine ⟨isPoint, ?_⟩
      dsimp only
      rw [List.flatMap_append, List.flatMap_singleton, isMembers]
  | none =>
      obtain ⟨first, rest, isPlaces⟩ := List.exists_cons_of_ne_nil nonempty
      have isFirst := alike first (isPlaces ▸ List.mem_cons_self)
      rw [joinShape, isPlaces, joinAll]
      refine List.rel_append shaped (List.Forall₂.cons ⟨isFirst, ?_⟩ List.Forall₂.nil)
      rw [List.flatMap_singleton, isPlaces]

omit [Field K] [LinearOrder K] [FloorRing K] [IsStrictOrderedRing K] in
/-- Every rank is in one shape. -/
theorem joinShape_perm {shapes : List ((K × K) × List (Text ×ₗ K ×ₗ K))}
    {rank : Text ×ₗ K ×ₗ K} {o : Option ℕ} (inside : ∀ i, o = some i → i < shapes.length) :
    ((joinShape shapes rank o).flatMap Prod.snd).Perm (shapes.flatMap Prod.snd ++ [rank]) := by
  cases o with
  | none =>
      rw [joinShape, List.flatMap_append, List.flatMap_singleton]
  | some i =>
      obtain ⟨before, shape, after, rfl, -, modified⟩ := List.exists_of_modify
        (fun shape : (K × K) × List (Text ×ₗ K ×ₗ K) => (shape.1, shape.2 ++ [rank]))
        (inside i rfl)
      rw [joinShape, modified]
      simp only [List.flatMap_append, List.flatMap_cons, List.append_assoc]
      exact (List.perm_append_comm.append_left shape.2).append_left _

/-- **The ranks decide which markers there are.** Two lists of places with the same ranks lead to
markers of the same shapes. -/
theorem Built.shapes {places places' : Text ×ₗ K ×ₗ K → List (Member K Text Details)} :
    ∀ {ranks : List (Text ×ₗ K ×ₗ K)} {result result' : List (Marker K Text Details)},
      Ranked ranks places → Ranked ranks places' → Built (ranks.flatMap places) result →
      Built (ranks.flatMap places') result' →
      ∃ shapes, (shapes.flatMap Prod.snd).Perm ranks ∧
        List.Forall₂ (Shaped places) shapes result ∧
        List.Forall₂ (Shaped places') shapes result' := by
  intro ranks
  induction ranks using List.reverseRecOn with
  | nil =>
      intro result result' _ _ built built'
      have none : ∀ {result : List (Marker K Text Details)}, Built [] result → result = [] := by
        intro result built
        generalize empty : ([] : List (Member K Text Details)) = l at built
        cases built with
        | nil => rfl
        | snoc => exact absurd empty (by simp)
      rw [none built, none built']
      exact ⟨[], List.Perm.nil, List.Forall₂.nil, List.Forall₂.nil⟩
  | append_singleton ranks rank ih =>
      intro result result' ranked ranked' built built'
      rw [List.flatMap_append, List.flatMap_singleton] at built built'
      have last := List.mem_append_right ranks (List.mem_singleton_self rank)
      obtain ⟨before, o, early, found, rfl⟩ :=
        built.of_append (ranked.nonempty rank last) (ranked.point rank last)
      obtain ⟨before', o', early', found', rfl⟩ :=
        built'.of_append (ranked'.nonempty rank last) (ranked'.point rank last)
      obtain ⟨shapes, perm, shaped, shaped'⟩ := ih
        ⟨fun r member => ranked.nonempty r (List.mem_append_left _ member),
          fun r member => ranked.point r (List.mem_append_left _ member)⟩
        ⟨fun r member => ranked'.nonempty r (List.mem_append_left _ member),
          fun r member => ranked'.point r (List.mem_append_left _ member)⟩ early early'
      rw [map_point_of_shaped shaped] at found
      rw [map_point_of_shaped shaped'] at found'
      obtain rfl := found.unique found'
      refine ⟨joinShape shapes rank o, ?_,
        joinAll_shaped shaped (ranked.nonempty rank last) (ranked.point rank last) o,
        joinAll_shaped shaped' (ranked'.nonempty rank last) (ranked'.point rank last) o⟩
      refine (joinShape_perm fun i isSome => ?_).trans (perm.append_right [rank])
      rw [isSome] at found
      obtain ⟨p, isP, -⟩ := found
      rw [← List.length_map (f := Prod.fst)]
      exact (List.getElem?_eq_some_iff.mp isP).1

end Built

/-! ## The places that are kept -/

section Groups

variable {K Text Details : Type} [LinearOrder K] [LinearOrder Text]

/-- The places of a rank. -/
def placesOf (l : List (Member K Text Details)) (rank : Text ×ₗ K ×ₗ K) :
    List (Member K Text Details) :=
  l.filter fun c => c.rank = rank

/-- The sorted places that are kept. -/
def keptSorted (candidates : List (Member K Text Details)) : List (Member K Text Details) :=
  keptOf none (sortSlice sortedBefore candidates)

/-- The ranks of some places, in their order. -/
def ranksOf (candidates : List (Member K Text Details)) : List (Text ×ₗ K ×ₗ K) :=
  ((sortSlice sortedBefore candidates).map Member.rank).dedup

variable {candidates candidates' : List (Member K Text Details)}

theorem keptSorted_sorted (candidates : List (Member K Text Details)) :
    (keptSorted candidates).Pairwise fun a b => a.rank ≤ b.rank :=
  (sortSlice_sorted sortedBefore_iff candidates).sublist (keptOf_sublist _ _)

theorem mem_of_mem_keptSorted {c : Member K Text Details} (member : c ∈ keptSorted candidates) :
    c ∈ candidates :=
  mem_sortSlice.mp ((keptOf_sublist _ _).subset member)

/-- A place is kept, or it repeats one that is kept. -/
theorem mem_keptSorted {c : Member K Text Details} (member : c ∈ candidates) :
    ∃ kept ∈ keptSorted candidates, kept = c ∨ Repeats c kept := by
  rcases exists_keptOf none (mem_sortSlice.mpr member) with
    kept | ⟨kept, known | known, repeats⟩
  · exact ⟨c, kept, Or.inl rfl⟩
  · exact ⟨kept, known, Or.inr repeats⟩
  · cases known

theorem ranksOf_strict (candidates : List (Member K Text Details)) :
    (ranksOf candidates).Pairwise (· < ·) := by
  have sorted : (ranksOf candidates).Pairwise (· ≤ ·) :=
    (List.pairwise_map.mpr (sortSlice_sorted sortedBefore_iff candidates)).sublist
      (List.dedup_sublist _)
  exact (sorted.and (List.nodup_dedup _)).imp fun {a b} both => lt_of_le_of_ne both.1 both.2

theorem mem_ranksOf {rank : Text ×ₗ K ×ₗ K} :
    rank ∈ ranksOf candidates ↔ ∃ c ∈ candidates, c.rank = rank := by
  rw [ranksOf, List.mem_dedup, List.mem_map]
  simp only [mem_sortSlice]

/-- The ranks do not depend on the order of the places. -/
theorem ranksOf_eq (perm : candidates'.Perm candidates) :
    ranksOf candidates' = ranksOf candidates := by
  have same : ∀ rank, rank ∈ ranksOf candidates' ↔ rank ∈ ranksOf candidates := by
    intro rank
    rw [mem_ranksOf, mem_ranksOf]
    exact exists_congr fun c => and_congr_left' perm.mem_iff
  have nodup : ∀ l : List (Member K Text Details), (ranksOf l).Nodup := fun l =>
    List.nodup_dedup _
  exact ((List.perm_ext_iff_of_nodup (nodup _) (nodup _)).mpr same).eq_of_pairwise
    (fun a b _ _ less more => absurd more less.not_gt)
    (ranksOf_strict candidates') (ranksOf_strict candidates)

/-- **The places that are kept, rank by rank.** -/
theorem flatMap_placesOf (candidates : List (Member K Text Details)) :
    (ranksOf candidates).flatMap (placesOf (keptSorted candidates)) = keptSorted candidates := by
  apply flatMap_filter_of_sorted (ranksOf_strict candidates) (keptSorted_sorted candidates)
  intro c member
  exact mem_ranksOf.mpr ⟨c, mem_of_mem_keptSorted member, rfl⟩

theorem ranked_placesOf (candidates : List (Member K Text Details)) :
    Ranked (ranksOf candidates) (placesOf (keptSorted candidates)) where
  nonempty rank member := by
    obtain ⟨c, known, rfl⟩ := mem_ranksOf.mp member
    obtain ⟨kept, inside, same⟩ := mem_keptSorted known
    have isRank : kept.rank = c.rank := by
      rcases same with rfl | repeats
      · rfl
      · exact repeats.rank_eq.symm
    exact List.ne_nil_of_mem (List.mem_filter.mpr ⟨inside, by simpa using isRank⟩)
  point rank _ c member := by
    have isRank := of_decide_eq_true (List.mem_filter.mp member).2
    rw [← isRank]
    rfl

/-- The places without a source. -/
def unidentified (l : List (Member K Text Details)) : List (Member K Text Details) :=
  l.filter fun m => m.feature.sourceIdentity = none

/-- **Places without a source are all kept.** -/
theorem unidentified_keptSorted (candidates : List (Member K Text Details)) :
    (unidentified (keptSorted candidates)).Perm (unidentified candidates) := by
  rw [unidentified, keptSorted, filter_keptOf]
  exact (sortSlice_perm _ _).filter _

/-- A source at a position. -/
def Holds (l : List (Member K Text Details)) (identity : Text) (point : K × K) : Prop :=
  ∃ m ∈ l, m.feature.sourceIdentity = some identity ∧ m.point = point

/-- **Every source is kept at every position.** -/
theorem holds_keptSorted_iff {identity : Text} {point : K × K} :
    Holds (keptSorted candidates) identity point ↔ Holds candidates identity point := by
  constructor
  · rintro ⟨m, member, known⟩
    exact ⟨m, mem_of_mem_keptSorted member, known⟩
  · rintro ⟨m, member, isIdentity, isPoint⟩
    obtain ⟨kept, inside, rfl | ⟨-, same, samePoint⟩⟩ := mem_keptSorted member
    · exact ⟨kept, inside, isIdentity, isPoint⟩
    · exact ⟨kept, inside, same.symm.trans isIdentity, samePoint.symm.trans isPoint⟩

/-- A place that is kept does not repeat the one before it. -/
theorem keptOf_chain : ∀ (previous : Member K Text Details) (l : List (Member K Text Details)),
    (previous :: keptOf (some previous) l).IsChain fun a b => ¬Repeats b a := by
  intro previous l
  induction l generalizing previous with
  | nil => exact List.IsChain.singleton previous
  | cons candidate rest ih =>
      rw [keptOf]
      split_ifs with dropped
      · exact ih previous
      · rw [isRepeat_some_iff] at dropped
        exact List.isChain_cons_cons.mpr ⟨dropped, ih candidate⟩

theorem keptSorted_chain (candidates : List (Member K Text Details)) :
    (keptSorted candidates).IsChain fun a b => ¬Repeats b a := by
  rw [keptSorted]
  cases sortSlice sortedBefore candidates with
  | nil => exact List.IsChain.nil
  | cons c rest => exact keptOf_chain c rest

/-- **Of the repeats of a source only one is kept**, if no place without a source is named like the
source and stands at the same position. -/
theorem placesOf_length {c : Member K Text Details} (member : c ∈ candidates)
    (alone : ∀ d ∈ candidates, d.rank = c.rank → d.feature.sourceIdentity.isSome) :
    (placesOf (keptSorted candidates) c.rank).length = 1 := by
  have known := mem_ranksOf.mpr ⟨c, member, rfl⟩
  have nonempty := (ranked_placesOf candidates).nonempty c.rank known
  have chain := keptSorted_chain candidates
  obtain ⟨before, after, split⟩ := List.append_of_mem known
  rw [← flatMap_placesOf, split, List.flatMap_append, List.flatMap_cons] at chain
  have here := (List.isChain_append.mp (List.isChain_append.mp chain).2.1).1
  have inside : ∀ d ∈ placesOf (keptSorted candidates) c.rank,
      d.feature.sourceIdentity.isSome ∧ d.rank = c.rank := by
    intro d filed
    obtain ⟨kept, isRank⟩ := List.mem_filter.mp filed
    have isRank := of_decide_eq_true isRank
    exact ⟨alone d (mem_of_mem_keptSorted kept) isRank, isRank⟩
  cases places : placesOf (keptSorted candidates) c.rank with
  | nil => exact absurd places nonempty
  | cons a rest =>
      cases rest with
      | nil => rfl
      | cons b rest =>
          rw [places] at here inside
          obtain ⟨knownA, rankA⟩ := inside a List.mem_cons_self
          obtain ⟨knownB, rankB⟩ := inside b (List.mem_cons_of_mem _ List.mem_cons_self)
          obtain ⟨labels, points⟩ := rank_eq_iff.mp (rankB.trans rankA.symm)
          obtain ⟨identityA, isA⟩ := Option.isSome_iff_exists.mp knownA
          obtain ⟨identityB, isB⟩ := Option.isSome_iff_exists.mp knownB
          rw [Member.label, Member.label, isA, isB, Option.getD_some, Option.getD_some] at labels
          exact absurd ⟨knownB, by rw [isA, isB, labels], points⟩ (List.isChain_cons_cons.mp here).1

end Groups

/-! ## Markers of the visible places -/

section Markers

variable {K Text Details U : Type} [Field K] [LinearOrder K] [FloorRing K] [LinearOrder Text]

/-- The places that a viewport shows. -/
def visible (graphics : CoreGraphics K U) (tiles : List (OfflineMapLabelTile K Text Details))
    (zoom : ℤ) (size : CGSize K) : List (Member K Text Details) :=
  match size.width, size.height with
  | some width, some height =>
    if 14 ≤ zoom ∧ 0 < width ∧ 0 < height then
      candidates graphics tiles (.finite ⟨0, 0, width, height⟩)
    else []
  | _, _ => []

theorem markers_eq_group (graphics : CoreGraphics K U)
    (tiles : List (OfflineMapLabelTile K Text Details)) (zoom : ℤ) (size : CGSize K) :
    markers graphics tiles zoom size = group (visible graphics tiles zoom size) := by
  unfold markers visible
  cases size.width with
  | none => rfl
  | some width =>
      cases size.height with
      | none => rfl
      | some height =>
          dsimp only
          split_ifs
          · rfl
          · rfl

omit [FloorRing K] [LinearOrder Text] in
theorem candidates_perm (graphics : CoreGraphics K U) (viewport : CGRect K U)
    {tiles tiles' : List (OfflineMapLabelTile K Text Details)} (perm : tiles'.Perm tiles) :
    (candidates graphics tiles' viewport).Perm (candidates graphics tiles viewport) :=
  perm.flatMap_right _

omit [FloorRing K] [LinearOrder Text] in
theorem visible_perm (graphics : CoreGraphics K U) (zoom : ℤ) (size : CGSize K)
    {tiles tiles' : List (OfflineMapLabelTile K Text Details)} (perm : tiles'.Perm tiles) :
    (visible graphics tiles' zoom size).Perm (visible graphics tiles zoom size) := by
  unfold visible
  split
  · split_ifs
    · exact candidates_perm graphics _ perm
    · exact List.Perm.nil
  · exact List.Perm.nil

omit [FloorRing K] [LinearOrder Text] in
theorem visible_shown (graphics : CoreGraphics K U)
    (tiles : List (OfflineMapLabelTile K Text Details)) (zoom : ℤ) (size : CGSize K) :
    ∀ c ∈ visible graphics tiles zoom size, Shown c.point := by
  intro c member
  unfold visible at member
  split at member
  · split_ifs at member
    · obtain ⟨tile, -, inTile⟩ := List.mem_flatMap.mp member
      obtain ⟨candidate, -, made⟩ := List.mem_filterMap.mp inTile
      cases place : tile.onScreen candidate.point with
      | none =>
          rw [place] at made
          cases made
      | some point =>
          rw [place] at made
          dsimp only at made
          split_ifs at made with inside
          rw [← Option.some.inj made]
          rw [Bool.and_eq_true] at inside
          obtain ⟨⟨west, -⟩, north, -⟩ := graphics.contains_sides _ _ inside.1
          exact ⟨west, north⟩
    · cases member
  · cases member

/-- The markers of some places. -/
structure Grouped (shown : List (Member K Text Details)) (result : List (Marker K Text Details)) :
    Prop where
  /-- Every place is in a marker, or a repeat of it is. -/
  complete : ∀ c ∈ shown, ∃ marker ∈ result, ∃ m ∈ marker.members, m = c ∨ Repeats c m
  /-- No place is in a marker twice, or in two. -/
  once : (result.flatMap Marker.members).Subperm shown
  /-- Places without a source are not repeats. -/
  unidentified : (unidentified (result.flatMap Marker.members)).Perm (unidentified shown)
  /-- Repeats are not kept, if no place without a source is named like their source. -/
  repeats : ∀ c ∈ shown,
    (∀ d ∈ shown, d.rank = c.rank → d.feature.sourceIdentity.isSome) →
      (placesOf (result.flatMap Marker.members) c.rank).length = 1
  /-- Places of one source or name and one position are in one marker. -/
  together : ∀ a ∈ result, ∀ b ∈ result, ∀ m ∈ a.members, ∀ n ∈ b.members, m.rank = n.rank → a = b
  spaced : result.Pairwise fun a b => spacing * spacing ≤ squaredDistance a.point b.point
  near : ∀ marker ∈ result, ∀ m ∈ marker.members,
    squaredDistance marker.point m.point < spacing * spacing
  sorted : ∀ marker ∈ result, marker.members.Pairwise fun a b => a.rank ≤ b.rank
  /-- A marker is its first member. -/
  first : ∀ marker ∈ result, marker.members.head? = some ⟨marker.feature, marker.point⟩
  /-- The members joined in their order, as a scan of all markers decides. -/
  joined : ∃ kept : List (Member K Text Details), kept.Perm (result.flatMap Marker.members) ∧
    kept.Pairwise (fun a b => a.rank ≤ b.rank) ∧ Built kept result

/-- Markers that differ in nothing but repeats of a source at a position, and in the order of
places of one rank. -/
structure SameMarker (a b : Marker K Text Details) : Prop where
  point : a.point = b.point
  unidentified : (unidentified a.members).Perm (unidentified b.members)
  identified : ∀ identity point, Holds a.members identity point ↔ Holds b.members identity point

omit [Field K] [FloorRing K] in
/-- Markers of one shape, from the same places in another order, are the same. -/
theorem sameMarker_of_shaped {shown shown' : List (Member K Text Details)}
    (perm : shown'.Perm shown) {shape : (K × K) × List (Text ×ₗ K ×ₗ K)}
    {a b : Marker K Text Details} (shaped : Shaped (placesOf (keptSorted shown')) shape a)
    (shaped' : Shaped (placesOf (keptSorted shown)) shape b) : SameMarker a b := by
  refine ⟨shaped.point.trans shaped'.point.symm, ?_, fun identity point => ?_⟩
  · have filtered : ∀ l : List (Member K Text Details),
        unidentified (shape.2.flatMap (placesOf l)) =
          shape.2.flatMap (placesOf (unidentified l)) := by
      intro l
      rw [unidentified, List.filter_flatMap]
      apply List.flatMap_congr
      intro rank _
      rw [placesOf, placesOf, unidentified, List.filter_filter, List.filter_filter]
      exact List.filter_congr fun c _ => Bool.and_comm _ _
    rw [shaped.members, shaped'.members, filtered, filtered]
    refine List.Perm.flatMap_left _ fun rank _ => List.Perm.filter _ ?_
    exact ((unidentified_keptSorted shown').trans (perm.filter _)).trans
      (unidentified_keptSorted shown).symm
  · have inShape : ∀ l : List (Member K Text Details),
        Holds (shape.2.flatMap (placesOf l)) identity point ↔
          toLex (identity, toLex point) ∈ shape.2 ∧ Holds l identity point := by
      intro l
      constructor
      · rintro ⟨m, member, isIdentity, isPoint⟩
        obtain ⟨rank, known, filed⟩ := List.mem_flatMap.mp member
        obtain ⟨inside, isRank⟩ := List.mem_filter.mp filed
        have isRank := of_decide_eq_true isRank
        rw [Member.rank, Member.label, isIdentity, isPoint, Option.getD_some] at isRank
        exact ⟨isRank ▸ known, m, inside, isIdentity, isPoint⟩
      · rintro ⟨known, m, inside, isIdentity, isPoint⟩
        refine ⟨m, List.mem_flatMap.mpr ⟨_, known, List.mem_filter.mpr ⟨inside, ?_⟩⟩, isIdentity,
          isPoint⟩
        rw [Member.rank, Member.label, isIdentity, isPoint, Option.getD_some]
        exact decide_eq_true rfl
    have same : Holds shown' identity point ↔ Holds shown identity point :=
      exists_congr fun m => and_congr_left' perm.mem_iff
    rw [shaped.members, shaped'.members, inShape, inShape, holds_keptSorted_iff,
      holds_keptSorted_iff, same]

variable [IsStrictOrderedRing K]

/-- Places in another order lead to the same markers. -/
theorem group_perm {shown shown' : List (Member K Text Details)} (perm : shown'.Perm shown)
    (inside : ∀ c ∈ shown, Shown c.point) :
    ∃ shapes, (shapes.flatMap Prod.snd).Perm (ranksOf shown) ∧
      List.Forall₂ (Shaped (placesOf (keptSorted shown'))) shapes (group shown') ∧
      List.Forall₂ (Shaped (placesOf (keptSorted shown))) shapes (group shown) := by
  have inside' : ∀ c ∈ shown', Shown c.point := fun c member => inside c (perm.mem_iff.mp member)
  have built := group_builds inside
  have built' := group_builds inside'
  rw [← keptSorted, ← flatMap_placesOf] at built built'
  have ranked' := ranked_placesOf shown'
  rw [ranksOf_eq perm] at built' ranked'
  exact Built.shapes ranked' (ranked_placesOf shown) built' built

/-- Places of one rank are in one marker. -/
theorem group_together {shown : List (Member K Text Details)}
    (inside : ∀ c ∈ shown, Shown c.point) {a b : Marker K Text Details} (inA : a ∈ group shown)
    (inB : b ∈ group shown) {m n : Member K Text Details} (memberM : m ∈ a.members)
    (memberN : n ∈ b.members) (same : m.rank = n.rank) : a = b := by
  obtain ⟨shapes, perm, -, shaped⟩ := group_perm (List.Perm.refl shown) inside
  have distinct : (shapes.flatMap Prod.snd).Nodup :=
    perm.nodup_iff.mpr ((ranksOf_strict shown).imp fun less => less.ne)
  have ranks : ∀ {shape : (K × K) × List (Text ×ₗ K ×ₗ K)} {marker : Marker K Text Details},
      Shaped (placesOf (keptSorted shown)) shape marker → ∀ m ∈ marker.members,
        m.rank ∈ shape.2 := by
    intro shape marker shaped m member
    rw [shaped.members] at member
    obtain ⟨rank, known, filed⟩ := List.mem_flatMap.mp member
    rw [of_decide_eq_true (List.mem_filter.mp filed).2]
    exact known
  have apart : (group shown).Pairwise fun a b => ∀ m ∈ a.members, ∀ n ∈ b.members,
      m.rank ≠ n.rank := by
    refine pairwise_of_forall₂ ?_ shaped (List.nodup_flatMap.mp distinct).2
    intro shape shape' marker marker' shaped shaped' disjoint m memberM n memberN equal
    exact disjoint (ranks shaped m memberM) (equal ▸ ranks shaped' n memberN)
  by_contra different
  have symmetric : Std.Symm fun a b : Marker K Text Details =>
      ∀ m ∈ a.members, ∀ n ∈ b.members, m.rank ≠ n.rank :=
    ⟨fun a b apart m memberM n memberN => (apart n memberN m memberM).symm⟩
  exact apart.forall inA inB different m memberM n memberN same

/-- The markers of some places. -/
theorem group_grouped {shown : List (Member K Text Details)}
    (inside : ∀ c ∈ shown, Shown c.point) : Grouped shown (group shown) := by
  have built : Built (keptSorted shown) (group shown) := group_builds inside
  have perm := built.perm
  have sublist : ((keptSorted shown).Subperm shown) :=
    (keptOf_sublist _ _).subperm.trans (sortSlice_perm sortedBefore shown).subperm
  refine ⟨fun c member => ?_, perm.subperm.trans sublist,
    (perm.filter _).trans (unidentified_keptSorted shown), fun c member alone => ?_,
    fun a inA b inB m memberM n memberN same => group_together inside inA inB memberM memberN same,
    built.spaced, built.near, fun marker member => ?_, built.first,
    ⟨keptSorted shown, perm.symm, keptSorted_sorted shown, built⟩⟩
  · obtain ⟨kept, known, same⟩ := mem_keptSorted member
    obtain ⟨marker, inGroup, inMarker⟩ := List.mem_flatMap.mp (perm.mem_iff.mpr known)
    exact ⟨marker, inGroup, kept, inMarker, same⟩
  · have count := (perm.filter fun d => d.rank = c.rank).length_eq
    exact count.trans (placesOf_length member alone)
  · exact (keptSorted_sorted shown).sublist (built.sublist marker member)

end Markers

/-! ## Examples -/

/-- A tile with some places, each with its source, its name and its position. -/
def tileOf (places : List (String × String × ℚ × ℚ)) : OfflineMapLabelTile ℚ String Unit :=
  ⟨places.map fun place => ⟨⟨place.2.1, some place.1, ()⟩, place.2.2, true⟩, ⟨some 0, some 0⟩,
    some 1⟩

/-- A viewport of a phone. -/
def phone : CGSize ℚ := ⟨some 390, some 600⟩

end OsmMini.Apple.OfflineMapPOILayout
