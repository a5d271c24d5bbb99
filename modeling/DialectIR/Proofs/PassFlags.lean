import DialectIR.CommandLine

/-! Which passes a command line runs. The arguments are read twice: once for all options and the
input file, and once for the passes alone. Of the first reading it is taken for granted which
arguments it recognizes as flags: none behind two dashes. The second reading sees flags there,
too. -/

namespace DialectIR

open Pipeline

variable {σ : Type} {registry : PassRegistry σ} {arguments more : List String}
  {argument name : String}

/-- Reads the arguments of a program that has some flags, and may be given an input file. If it
accepts them, it tells the names of the flags that it recognizes, in order. -/
abbrev FlagReader := List Flag → List String → Option (List String)

/-- A flag is recognized as the exact argument that is its name behind two dashes, and only in front
of the first two dashes that stand alone. -/
def FlagReader.Exact (read : FlagReader) : Prop :=
  ∀ flags arguments names, read flags arguments = some names → names.map ("--" ++ ·)
    = (arguments.takeWhile (· ≠ "--")).filter (· ∈ flags.map fun flag => "--" ++ flag.name)

namespace Pipeline

theorem flagName?_eq_some_iff : flagName? argument = some name ↔ argument = "--" ++ name := by
  rw [← String.toList_inj, String.toList_append]
  show _ ↔ argument.toList = '-' :: '-' :: name.toList
  unfold flagName?
  split
  next cs hcs =>
    rw [hcs, Option.some.injEq, List.cons.injEq, List.cons.injEq, ← String.toList_inj,
      String.toList_ofList]
    simp
  next hother => exact ⟨nofun, fun heq => absurd heq (hother name.toList)⟩

theorem askedFor_append :
    askedFor registry (arguments ++ more) = askedFor registry arguments
      ++ askedFor registry more := by
  simp [askedFor]

theorem askedFor_map (names : List String) :
    askedFor registry (names.map ("--" ++ ·)) = names.filter registry.contains := by
  have hname : flagName? ∘ ("--" ++ ·) = some := funext fun name => flagName?_eq_some_iff.2 rfl
  rw [askedFor, List.filterMap_map, hname, List.filterMap_some]

/-- A pass that is known has a flag. -/
theorem exists_flag (h : registry.contains name = true) :
    ∃ flag ∈ CommandLine.flags registry, flag.name = name := by
  obtain ⟨entry, hentry⟩ := Option.isSome_iff_exists.1 h
  refine ⟨⟨name, entry.description⟩, List.mem_append_left _ (List.mem_append_left _ ?_), rfl⟩
  exact List.mem_map.2 ⟨(name, entry.description),
    List.mem_map.2 ⟨(name, entry), Dict.mem_of_get? hentry, rfl⟩, rfl⟩

/-- Arguments that are no flags ask for nothing. -/
theorem askedFor_filter_flags (arguments : List String) :
    askedFor registry
      (arguments.filter (· ∈ (CommandLine.flags registry).map fun flag => "--" ++ flag.name))
      = askedFor registry arguments := by
  induction arguments with
  | nil => rfl
  | cons argument arguments ih =>
      rw [List.filter_cons]
      split
      next =>
        rw [← List.singleton_append, askedFor_append, ih, ← askedFor_append, List.singleton_append]
      next hnone =>
        have hnothing : askedFor registry [argument] = [] := by
          refine List.eq_nil_iff_forall_not_mem.2 fun name hname => hnone ?_
          obtain ⟨hmem, hcontains⟩ := List.mem_filter.1 hname
          obtain ⟨_, hsame, hflag⟩ := List.mem_filterMap.1 hmem
          obtain ⟨flag, hknown, rfl⟩ := exists_flag hcontains
          rw [List.mem_singleton.1 hsame] at hflag
          rw [flagName?_eq_some_iff.1 hflag]
          exact decide_eq_true (List.mem_map_of_mem hknown)
        rw [ih, ← List.singleton_append, askedFor_append, hnothing, List.nil_append]

/-- The passes among the flags that are recognized are those that are asked for in front of the two
dashes. -/
theorem passes_of_exact {read : FlagReader} (hread : read.Exact) {names : List String}
    (h : read (CommandLine.flags registry) arguments = some names) :
    names.filter registry.contains = askedFor registry (arguments.takeWhile (· ≠ "--")) := by
  rw [← askedFor_map, hread _ _ _ h, askedFor_filter_flags]

theorem length_flagName?_lt (h : flagName? name = some argument) :
    argument.toList.length < name.toList.length := by
  rw [flagName?_eq_some_iff.1 h, String.toList_append, List.length_append]
  exact Nat.lt_add_of_pos_left (by decide)

/-- A name stays as it is in a pipeline if it does not start with two dashes. -/
theorem names_ofNames_eq_iff {names : List String} :
    (ofNames names).names = names ↔ ∀ name ∈ names, flagName? name = none := by
  have hone (name : String) : (flagName? name).getD name = name ↔ flagName? name = none := by
    cases hflag : flagName? name with
    | none => simp
    | some rest =>
        have hlength := length_flagName?_lt hflag
        simp only [Option.getD_some, reduceCtorEq, iff_false]
        rintro rfl
        exact Nat.lt_irrefl _ hlength
  have hmap : names.map (fun name => (flagName? name).getD name) = names.map id ↔ _ :=
    List.map_inj_left
  simpa only [ofNames, List.map_id, id_eq, hone] using hmap

theorem contains_of_mem_askedFor (h : name ∈ askedFor registry arguments) :
    (registry.create? name).isSome = true := by
  have hcontains := (List.mem_filter.mp h).2
  rwa [PassRegistry.create?, Option.isSome_map]

end Pipeline

/-- **The two readings of a command line.** Where the first reading recognizes flags exactly,
arguments that it accepts run the passes whose flags it recognizes, in order, if and only if no
other argument looks like the flag of a pass, neither the name that the program is called by nor one
from the two dashes on, and if no recognized pass has a name with two dashes in front. All passes
that are run are known, unless there are passes with such names. -/
theorem names_ofArguments_iff {read : FlagReader} (hread : read.Exact) {program : String}
    {names : List String} (h : read (CommandLine.flags registry) arguments = some names) :
    ((Pipeline.ofArguments registry (program :: arguments)).names = names.filter registry.contains ↔
      askedFor registry (program :: arguments.dropWhile (· ≠ "--")) = [] ∧
        ∀ name ∈ names.filter registry.contains, flagName? name = none) ∧
    ((∀ name ∈ askedFor registry (program :: arguments), flagName? name = none) →
      ∀ name ∈ (Pipeline.ofArguments registry (program :: arguments)).names,
        (registry.create? name).isSome = true) := by
  have hlater : askedFor registry (program :: arguments.dropWhile (· ≠ "--")) =
      askedFor registry [program] ++ askedFor registry (arguments.dropWhile (· ≠ "--")) := by
    rw [← askedFor_append, List.singleton_append]
  have hall : askedFor registry (program :: arguments) = askedFor registry [program]
    ++ (names.filter registry.contains ++ askedFor registry (arguments.dropWhile (· ≠ "--"))) := by
    rw [passes_of_exact hread h, ← askedFor_append, List.takeWhile_append_dropWhile,
      ← askedFor_append, List.singleton_append]
  constructor
  · rw [ofArguments, hall, hlater]
    constructor
    · intro hnames
      have hlength := congrArg List.length hnames
      rw [ofNames, List.length_map, List.length_append, List.length_append] at hlength
      have hprogram : askedFor registry [program] = [] := List.eq_nil_of_length_eq_zero (by omega)
      have hbehind : askedFor registry (arguments.dropWhile (· ≠ "--")) = [] :=
        List.eq_nil_of_length_eq_zero (by omega)
      rw [hprogram, hbehind, List.append_nil, List.nil_append] at hnames
      exact ⟨by rw [hprogram, hbehind, List.append_nil], names_ofNames_eq_iff.mp hnames⟩
    · rintro ⟨hothers, hplain⟩
      obtain ⟨hprogram, hbehind⟩ := List.append_eq_nil_iff.mp hothers
      rw [hprogram, hbehind, List.append_nil, List.nil_append]
      exact names_ofNames_eq_iff.mpr hplain
  · intro hplain name hname
    rw [ofArguments, names_ofNames_eq_iff.mpr hplain] at hname
    exact contains_of_mem_askedFor hname

namespace CommandLine

variable {known : List String} {options options' : Options}

/-- A reader of flags: that of the program. -/
def readFlags : FlagReader := fun flags arguments =>
  match readArguments (flags.map Flag.name) {} arguments with
  | .work options => some options.given.reverse
  | _ => none

theorem given_of_readFiles (h : readFiles options arguments = .work options') :
    options'.given = options.given := by
  induction arguments generalizing options with
  | nil =>
      rw [readFiles, Request.work.injEq] at h
      rw [h]
  | cons argument rest ih =>
      rw [readFiles] at h
      split at h
      · cases h
      · exact (ih h).trans rfl

theorem takeWhile_cons_of_ne (h : argument ≠ "--") :
    (argument :: arguments).takeWhile (· ≠ "--") = argument :: arguments.takeWhile (· ≠ "--") :=
  List.takeWhile_cons_of_pos (decide_eq_true h)

/-- The options that are given are the flags in front of the two dashes. -/
theorem given_of_readArguments (h : readArguments known options arguments = .work options') :
    options'.given.reverse.map ("--" ++ ·) = options.given.reverse.map ("--" ++ ·)
      ++ (arguments.takeWhile (· ≠ "--")).filter (· ∈ known.map ("--" ++ ·)) := by
  have hdashes {argument : String} : argument = "--" ↔ argument.toList = ['-', '-'] :=
    String.toList_inj.symm
  -- one case for each way to go on; in all others the arguments are not accepted
  fun_induction readArguments known options arguments with
  | case1 options =>
      rw [Request.work.injEq] at h
      rw [h, List.takeWhile_nil, List.filter_nil, List.append_nil]
  | case2 options argument rest hend =>
      rw [given_of_readFiles h, List.takeWhile_cons_of_neg (by simp [hdashes.mpr hend]),
        List.filter_nil, List.append_nil]
  | case3 options argument rest cs hcs hargument name hknown ih =>
      have hne : argument ≠ "--" := fun heq => hcs (by simpa [hargument] using hdashes.mp heq)
      have hflag : flagName? argument = some name := by simp [flagName?, hargument, name]
      have hname : argument = "--" ++ name := flagName?_eq_some_iff.1 hflag
      have hmem : argument ∈ known.map ("--" ++ ·) := by
        rw [Bool.and_eq_true, Bool.and_eq_true] at hknown
        exact List.mem_map.2 ⟨name, List.contains_iff_mem.1 hknown.1.1, hname.symm⟩
      rw [ih h, takeWhile_cons_of_ne hne, List.filter_cons, if_pos (decide_eq_true hmem),
        List.reverse_cons, List.map_append,
        List.append_assoc, List.map_singleton, List.singleton_append, ← hname]
  | case11 options argument rest hinput hend hflag _ _ _ ih =>
      have hne : argument ≠ "--" := fun heq => hend (hdashes.mp heq)
      have hnone : argument ∉ known.map ("--" ++ ·) := by
        intro hmem
        obtain ⟨name, -, rfl⟩ := List.mem_map.1 hmem
        exact hflag name.toList (String.toList_append ..)
      rw [ih h, takeWhile_cons_of_ne hne, List.filter_cons, if_neg (mt of_decide_eq_true hnone)]
  | case4 | case5 | case6 | case7 | case8 | case9 | case10 => cases h

theorem exact_readFlags : FlagReader.Exact readFlags := by
  intro flags arguments names h
  unfold readFlags at h
  split at h
  next options hwork =>
    rw [← Option.some.inj h, given_of_readArguments hwork, List.map_map]
    rfl
  next => cases h

end CommandLine

open CommandLine

/-- Both passes of the library, with an input file between them and two dashes at the end. -/
theorem names_ofArguments_iff_both :
    readFlags (flags passes) ["--canonicalize", "input.mlir", "--convert-arith-to-llvm", "--"] =
        some ["canonicalize", "convert-arith-to-llvm"] ∧
      (Pipeline.ofArguments passes ["passwrap-opt", "--canonicalize", "input.mlir",
        "--convert-arith-to-llvm", "--"]).names =
        ["canonicalize", "convert-arith-to-llvm"] := by
  have haccepted : readFlags (flags passes)
    ["--canonicalize", "input.mlir", "--convert-arith-to-llvm", "--"] =
      some ["canonicalize", "convert-arith-to-llvm"] := by decide
  exact ⟨haccepted, (names_ofArguments_iff exact_readFlags haccepted).1.mpr ⟨by decide, by decide⟩⟩

/-- An input file that is named like the flag of a pass, behind two dashes, runs the pass, whatever
else there is to the first reading; and there is a reading that accepts it. -/
theorem exists_names_ofArguments_ne :
    (∃ read : FlagReader, read.Exact ∧ (read (flags passes) ["--", "--canonicalize"]).isSome) ∧
    ∀ read : FlagReader, read.Exact → ∀ names, read (flags passes) ["--", "--canonicalize"]
      = some names →
      (Pipeline.ofArguments passes ["passwrap-opt", "--", "--canonicalize"]).names
        ≠ names.filter passes.contains := by
  refine ⟨⟨readFlags, exact_readFlags, by decide⟩, fun read hread names hnames hsame => ?_⟩
  rw [passes_of_exact hread hnames] at hsame
  exact absurd hsame (by decide)

end DialectIR
