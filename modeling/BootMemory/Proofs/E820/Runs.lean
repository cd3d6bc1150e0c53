import Mathlib.Data.List.SplitBy
import Mathlib.Data.List.Induction
import BootMemory.Proofs.E820.Parts

/-!
# Runs of regions

Regions of one kind that follow each other without a gap form a *run*.  The legacy
map keeps one entry for each run and finds the runs as it goes: it remembers only
its last entry.  This module cuts a list of regions into its maximal runs and shows
that entering the regions one by one gives the same entries.

Main results:

- Theorem {lit}`stop_of_run`: the sizes of a run add up to the distance from its
  start to its end.
- Theorem {lit}`holds_run_iff`: a run holds what its regions hold.
- Theorem {lit}`foldl_place_eq_map_ofRun`: entering regions one by one gives one
  entry for each maximal run.
-/

namespace BootMemory.E820

namespace Region

/-- Whether a second region has the kind of a first one and starts exactly where that
one ends. -/
def continuedBy (first second : Region) : Bool :=
  first.kind == second.kind && first.stop == second.start.toNat

/-- Continuing means the same kind and no gap. -/
theorem continuedBy_iff (first second : Region) :
    first.continuedBy second = true ↔
      first.kind = second.kind ∧ first.stop = second.start.toNat := by
  simp [continuedBy]

end Region

/-- The maximal runs of a list of regions, in order. -/
def runs (regions : List Region) : List (List Region) :=
  regions.splitBy Region.continuedBy

/-- A list of regions that continue each other. -/
abbrev IsRun (run : List Region) : Prop :=
  run.IsChain fun first second => first.continuedBy second = true

/-- The number of bytes in some regions. -/
def totalSize (regions : List Region) : Nat :=
  (regions.map fun region => region.size.toNat).sum

/-- The entry that describes a run: the first start, all bytes and the kind. -/
def Entry.ofRun : List Region → Entry
  | [] => default
  | first :: rest =>
      { address := first.start
        size := UInt64.ofNat (totalSize (first :: rest))
        code := first.kind.code }

/-! ## One run -/

/-- All regions of a run have the kind of the first one. -/
theorem kind_of_mem_run {first : Region} {rest : List Region} (hrun : IsRun (first :: rest))
    {region : Region} (hmem : region ∈ first :: rest) : region.kind = first.kind := by
  induction rest generalizing first with
  | nil => rw [List.mem_singleton.1 hmem]
  | cons second rest ih =>
      obtain ⟨hcontinued, htail⟩ := List.isChain_cons_cons.1 hrun
      have hkind := ((Region.continuedBy_iff first second).1 hcontinued).1
      rcases List.mem_cons.1 hmem with rfl | hmem
      · rfl
      · rw [ih htail hmem, hkind]

/-- The sizes of a run add up to the distance from its start to its end. -/
theorem stop_of_run {first : Region} {rest : List Region} (hrun : IsRun (first :: rest)) :
    first.start.toNat + totalSize (first :: rest) =
      ((first :: rest).getLast (List.cons_ne_nil _ _)).stop := by
  induction rest generalizing first with
  | nil => simp [totalSize, Region.stop]
  | cons second rest ih =>
      obtain ⟨hcontinued, htail⟩ := List.isChain_cons_cons.1 hrun
      have hstop := ((Region.continuedBy_iff first second).1 hcontinued).2
      have hsum : totalSize (first :: second :: rest) =
          first.size.toNat + totalSize (second :: rest) := rfl
      rw [List.getLast_cons (List.cons_ne_nil _ _), ← ih htail, hsum, ← Nat.add_assoc, ← hstop]
      rfl

/-- The addresses from the start to the end of a run are those that its regions
hold. -/
theorem holds_run_iff {first : Region} {rest : List Region} (hrun : IsRun (first :: rest))
    (address : Nat) :
    (∃ region ∈ first :: rest, region.Holds address) ↔
      first.start.toNat ≤ address ∧
        address < first.start.toNat + totalSize (first :: rest) := by
  induction rest generalizing first with
  | nil => simp [totalSize, Region.Holds, Region.stop]
  | cons second rest ih =>
      obtain ⟨hcontinued, htail⟩ := List.isChain_cons_cons.1 hrun
      have hstop := ((Region.continuedBy_iff first second).1 hcontinued).2
      have hsum : totalSize (first :: second :: rest) =
          first.size.toNat + totalSize (second :: rest) := rfl
      rw [List.exists_mem_cons_iff, ih htail, hsum]
      simp only [Region.Holds]
      simp only [Region.stop] at hstop ⊢
      omega

theorem totalSize_lt_of_isRun {run : List Region} (hrun : IsRun run) (hne : run ≠ [])
    (hlast : (run.getLast hne).Solid) : totalSize run < 2 ^ 64 := by
  cases run with
  | nil => exact (hne rfl).elim
  | cons first rest =>
      have hstop := stop_of_run hrun
      have hbound := hlast.stop_lt
      omega

/-! ## The entry of a run -/

namespace Entry

theorem toNat_size_ofRun {run : List Region} (hne : run ≠ []) (hfits : totalSize run < 2 ^ 64) :
    (ofRun run).size.toNat = totalSize run := by
  cases run with
  | nil => exact (hne rfl).elim
  | cons first rest => exact UInt64.toNat_ofNat_of_lt' hfits

theorem ofRun_singleton (region : Region) : ofRun [region] = ofRegion region := by
  have hsize : totalSize [region] = region.size.toNat := Nat.add_zero _
  simp only [ofRun, ofRegion, hsize, UInt64.ofNat_toNat]

/-- One more region at the end of a run makes its entry longer. -/
theorem ofRun_concat {run : List Region} (hne : run ≠ []) {region : Region}
    (hfits : totalSize (run ++ [region]) < 2 ^ 64) :
    ofRun (run ++ [region]) = (ofRun run).grow region.size := by
  have hsum : totalSize (run ++ [region]) = totalSize run + region.size.toNat := by
    simp [totalSize]
  have hsize : (ofRun (run ++ [region])).size = ((ofRun run).grow region.size).size := by
    apply UInt64.toNat_inj.1
    rw [toNat_size_ofRun (by simp) hfits, grow, toNat_saturatingAdd,
      toNat_size_ofRun hne (by omega)]
    omega
  cases run with
  | nil => exact (hne rfl).elim
  | cons first rest =>
      simp only [ofRun, List.cons_append] at hsize
      simp only [ofRun, List.cons_append, grow, hsize]

theorem place_nil (region : Region) : place [] region = [ofRegion region] := rfl

theorem place_concat (front : List Entry) (last : Entry) (region : Region) :
    place (front ++ [last]) region =
      if last.continuedBy region then front ++ [last.grow region.size]
      else front ++ [last] ++ [ofRegion region] := by
  simp only [place, List.getLast?_concat, List.dropLast_concat]

/-- Whether a region continues the entry of a run is up to the last region of the
run. -/
theorem continuedBy_ofRun {run : List Region} (hrun : IsRun run) (hne : run ≠ [])
    (hlast : (run.getLast hne).Solid) (region : Region) :
    (ofRun run).continuedBy region = (run.getLast hne).continuedBy region := by
  cases run with
  | nil => exact (hne rfl).elim
  | cons first rest =>
      have hkind := kind_of_mem_run hrun (List.getLast_mem hne)
      have hstop := stop_of_run hrun
      have hbound := hlast.stop_lt
      have hlimit : (ofRun (first :: rest)).limit.toNat =
          ((first :: rest).getLast hne).stop := by
        rw [limit, toNat_saturatingAdd, toNat_size_ofRun hne (by omega)]
        simp only [ofRun]
        omega
      rw [Bool.eq_iff_iff, Region.continuedBy_iff, hkind, ← hlimit, UInt64.toNat_inj]
      simp only [continuedBy, Bool.and_eq_true, beq_iff_eq, ofRun, Kind.code_inj]

end Entry

/-! ## Runs that grow at their end -/

theorem flatten_runs (regions : List Region) : (runs regions).flatten = regions :=
  List.flatten_splitBy _ _

theorem isRun_of_mem_runs {regions run : List Region} (h : run ∈ runs regions) : IsRun run :=
  List.isChain_of_mem_splitBy h

theorem ne_nil_of_mem_runs {regions run : List Region} (h : run ∈ runs regions) : run ≠ [] :=
  List.ne_nil_of_mem_splitBy h

theorem totalSize_lt_of_mem_runs {regions run : List Region}
    (hsolid : ∀ region ∈ regions, region.Solid) (h : run ∈ runs regions) :
    totalSize run < 2 ^ 64 := by
  have hne := ne_nil_of_mem_runs h
  apply totalSize_lt_of_isRun (isRun_of_mem_runs h) hne
  apply hsolid
  rw [← flatten_runs regions]
  exact List.mem_flatten.2 ⟨run, h, List.getLast_mem hne⟩

/-- A region that does not continue the last run starts a run of its own. -/
theorem runs_concat_of_not_continued {regions : List Region} {region : Region}
    (h : ∀ last ∈ regions.getLast?, last.continuedBy region = false) :
    runs (regions ++ [region]) = runs regions ++ [[region]] :=
  List.splitBy_append_cons [] h

/-- A region that continues the last run becomes its last region. -/
theorem runs_concat_of_continued {regions run : List Region} {front : List (List Region)}
    {region : Region} (hruns : runs regions = front ++ [run]) (hne : run ≠ [])
    (h : (run.getLast hne).continuedBy region = true) :
    runs (regions ++ [region]) = front ++ [run ++ [region]] := by
  obtain ⟨hflatten, hnil, hchains, hgaps⟩ := List.splitBy_eq_iff.1 hruns
  refine List.splitBy_eq_iff.2 ⟨?_, ?_, ?_, ?_⟩
  · simp [hflatten]
  · intro hmem
    rcases List.mem_append.1 hmem with hfront | hlast
    · exact hnil (List.mem_append_left _ hfront)
    · simp at hlast
  · intro other hmem
    rcases List.mem_append.1 hmem with hfront | hlast
    · exact hchains other (List.mem_append_left _ hfront)
    · rw [List.mem_singleton.1 hlast]
      refine List.isChain_append.2 ⟨hchains run (by simp), List.isChain_singleton _, ?_⟩
      intro last hlast second hsecond
      obtain rfl : region = second := by simpa using hsecond
      rw [← List.getLast_of_mem_getLast? hlast]
      exact h
  · obtain ⟨hfront, _, hgap⟩ := List.isChain_append.1 hgaps
    refine List.isChain_append.2 ⟨hfront, List.isChain_singleton _, ?_⟩
    intro before hbefore grown hgrown
    obtain rfl : run ++ [region] = grown := by simpa using hgrown
    obtain ⟨hbeforeNe, _, hbreak⟩ := hgap before hbefore run rfl
    exact ⟨hbeforeNe, by simp, by rw [List.head_append_of_ne_nil hne]; exact hbreak⟩

theorem getLast?_of_runs {regions run : List Region} {front : List (List Region)}
    (hruns : runs regions = front ++ [run]) (hne : run ≠ []) :
    regions.getLast? = some (run.getLast hne) := by
  rw [← flatten_runs regions, hruns, List.flatten_append, List.flatten_singleton,
    List.getLast?_append_of_ne_nil _ hne, List.getLast?_eq_some_getLast hne]

/-- One more region grows the last run or starts a run. -/
theorem runs_concat {regions run : List Region} {front : List (List Region)} (region : Region)
    (hruns : runs regions = front ++ [run]) (hne : run ≠ []) :
    runs (regions ++ [region]) =
      if (run.getLast hne).continuedBy region then front ++ [run ++ [region]]
      else front ++ [run] ++ [[region]] := by
  by_cases hcontinued : (run.getLast hne).continuedBy region = true
  · rw [if_pos hcontinued, runs_concat_of_continued hruns hne hcontinued]
  · rw [if_neg hcontinued, ← hruns]
    apply runs_concat_of_not_continued
    intro last hlast
    obtain rfl : run.getLast hne = last := by simpa [getLast?_of_runs hruns hne] using hlast
    exact Bool.eq_false_iff.2 hcontinued

/-- The same without naming the last run. -/
theorem runs_concat_cases (regions : List Region) (region : Region) :
    runs (regions ++ [region]) = runs regions ++ [[region]] ∨
      ∃ front run, run ≠ [] ∧ runs regions = front ++ [run] ∧
        runs (regions ++ [region]) = front ++ [run ++ [region]] := by
  rcases List.eq_nil_or_concat (runs regions) with hnil | ⟨front, run, hruns⟩
  · obtain rfl := List.splitBy_eq_nil.1 hnil
    exact Or.inl rfl
  · rw [List.concat_eq_append] at hruns
    have hne : run ≠ [] := ne_nil_of_mem_runs (show run ∈ runs regions by simp [hruns])
    have hconcat := runs_concat region hruns hne
    split at hconcat
    next => exact Or.inr ⟨front, run, hne, hruns, hconcat⟩
    next => exact Or.inl (hruns ▸ hconcat)

/-- One more region is placed behind the entries of the runs so far. -/
theorem map_ofRun_concat {regions : List Region} {region : Region}
    (hsolid : ∀ other ∈ regions ++ [region], other.Solid) :
    (runs (regions ++ [region])).map Entry.ofRun =
      Entry.place ((runs regions).map Entry.ofRun) region := by
  rcases List.eq_nil_or_concat (runs regions) with hnil | ⟨front, run, hruns⟩
  · obtain rfl := List.splitBy_eq_nil.1 hnil
    exact congrArg (fun entry => [entry]) (Entry.ofRun_singleton region)
  · rw [List.concat_eq_append] at hruns
    have hmem : run ∈ runs regions := by simp [hruns]
    have hne := ne_nil_of_mem_runs hmem
    have hlast : (run.getLast hne).Solid :=
      hsolid _ (List.mem_append_left _ (List.mem_of_getLast? (getLast?_of_runs hruns hne)))
    have hconcat := runs_concat region hruns hne
    rw [hruns, List.map_append, List.map_singleton, Entry.place_concat,
      Entry.continuedBy_ofRun (isRun_of_mem_runs hmem) hne hlast]
    by_cases hcontinued : (run.getLast hne).continuedBy region = true
    · rw [if_pos hcontinued] at hconcat
      have hfits : totalSize (run ++ [region]) < 2 ^ 64 :=
        totalSize_lt_of_mem_runs hsolid (by simp [hconcat])
      rw [if_pos hcontinued, hconcat, List.map_append, List.map_singleton,
        Entry.ofRun_concat hne hfits]
    · rw [if_neg hcontinued] at hconcat
      rw [if_neg hcontinued, hconcat, List.map_append, List.map_append, List.map_singleton,
        List.map_singleton, Entry.ofRun_singleton]

/-- Entering regions one by one gives one entry for each maximal run. -/
theorem foldl_place_eq_map_ofRun {regions : List Region}
    (hsolid : ∀ region ∈ regions, region.Solid) :
    regions.foldl Entry.place [] = (runs regions).map Entry.ofRun := by
  induction regions using List.reverseRecOn with
  | nil => rfl
  | append_singleton regions region ih =>
      rw [List.foldl_append, List.foldl_cons, List.foldl_nil, map_ofRun_concat hsolid,
        ih fun other hmem => hsolid other (List.mem_append_left _ hmem)]

end BootMemory.E820
