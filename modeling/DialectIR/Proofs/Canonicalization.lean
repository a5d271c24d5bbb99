import DialectIR.Proofs.Preservation

/-! Canonicalization preserves meaning. The names of a tree and of all that is inserted in a run get
one meaning, which is right about the tree before the run and behind it, so that what is not
arithmetic sees the same values. -/

namespace DialectIR

namespace Arith

open Greedy Operation

variable {σ : Type} {patterns : FrozenPatterns σ} {config : Config} {quiet : OpName → Bool}
  {given env : String → Int} {heads : List Head} {root : Operation}

/-- The type of a name that some operations define. -/
def typeIn (heads : List Head) (name : String) : Ty :=
  match (heads.flatMap (·.results)).find? (·.name = name) with
  | some result => result.ty
  | none => .none

theorem typeIn_name (hapart : Apart [] heads) {head : Head} (hhead : head ∈ heads) {result : Value}
    (hresult : result ∈ head.results) : typeIn heads result.name = result.ty := by
  have hmem : result ∈ heads.flatMap (·.results) := List.mem_flatMap.2 ⟨head, hhead, hresult⟩
  have hnodup : ((heads.flatMap (·.results)).map Value.name).Nodup := by
    rw [List.map_flatMap]
    exact hapart.nodup
  unfold typeIn
  cases hfind : (heads.flatMap (·.results)).find? (·.name = result.name) with
  | none => exact absurd (List.find?_eq_none.1 hfind result hmem) (by simp)
  | some found =>
      have hname : found.name = result.name := by simpa using List.find?_some hfind
      exact congrArg Value.ty
        (List.inj_on_of_nodup_map hnodup (List.mem_of_find?_eq_some hfind) hmem hname)

/-- What names mean behind some operations. -/
def Meaning.behind (given : String → Int) (heads : List Head) (hordered : Ordered [] heads)
    (hapart : Apart [] heads) :
    Meaning where
  ty := typeIn heads
  value := evaluate given heads
  ranged name := by
    by_cases hname : name ∈ heads.flatMap Head.resultNames
    · obtain ⟨head, hhead, hname⟩ := List.mem_flatMap.1 hname
      obtain ⟨result, hresult, rfl⟩ := List.mem_map.1 hname
      have hsatisfies : Satisfies given (evaluate given heads) head :=
        satisfies_foldl hordered hapart head hhead
      rw [typeIn_name hapart hhead hresult, hsatisfies result hresult]
      exact Ty.wrap_wrap _ _
    · rw [evaluate_of_not_mem hname]
      exact Ty.wrap_zero _

/-- Such a meaning is right about the operations of a tree. -/
theorem holds_behind (hordered : Ordered [] heads) (hapart : Apart [] heads)
    (hsub : root.heads ⊆ heads) (hroot : root.verify = .ok ()) (htyped : root.WellTyped)
    (hwell : ∀ head ∈ root.heads, WellFormed head) :
    ∀ head ∈ root.heads, (Meaning.behind given heads hordered hapart).Holds given head := by
  intro head hhead
  refine ⟨fun operand hoperand => ?_, fun result hresult => ?_, hwell head hhead, ?_⟩
  · have hmem : operand ∈ root.allOperands := List.mem_flatMap.2 ⟨head, hhead, hoperand⟩
    have hscoped := (verify_eq_ok_iff.1 hroot).1
    have hname := (hscoped.mem_of_operand operand hmem).resolve_left List.not_mem_nil
    have hdefined : operand.name ∈ root.definedNames := by
      rw [definedNames_eq]
      exact List.mem_append_right _ hname
    obtain ⟨other, hother, hname⟩ := List.mem_flatMap.1 hdefined
    obtain ⟨result, hresult, hsame⟩ := List.mem_map.1 hname
    have hty := htyped operand hmem result (List.mem_flatMap.2 ⟨other, hother, hresult⟩) hsame
    rw [← hty, ← hsame]
    exact (typeIn_name hapart (hsub hother) hresult).symm
  · exact (typeIn_name hapart (hsub hhead) hresult).symm
  · exact satisfies_foldl hordered hapart head (hsub hhead)

/-- A tree has the effects that it has in any environment with the values that it computes. -/
theorem effects_evaluate (hroot : root.verify = .ok ())
    (hsatisfies : ∀ head ∈ root.heads, Satisfies given env head) :
    root.effects quiet (evaluate given root.heads) = root.effects quiet env := by
  obtain ⟨hscoped, hnodup⟩ := verify_eq_ok_iff.1 hroot
  have hagrees : ∀ name ∈ [] ++ root.heads.flatMap Head.resultNames,
    evaluate given root.heads name = env name :=
    foldl_eq_of_satisfies (ordered_of_scoped hscoped) ⟨hnodup, nofun⟩ nofun hsatisfies
  refine effects_congr fun name hname => hagrees name ?_
  obtain ⟨head, hhead, hname⟩ := List.mem_flatMap.1 hname
  obtain ⟨operand, hoperand, rfl⟩ := List.mem_map.1 hname
  have hnested :=
    (hscoped.mem_of_operand operand (List.mem_flatMap.2 ⟨head, hhead, hoperand⟩)).resolve_left
      List.not_mem_nil
  show operand.name ∈ root.definedNames
  rw [definedNames_eq]
  exact List.mem_append_right _ hnested

/-- The operations that the matches at some encounters insert. -/
def insertedIn (patterns : FrozenPatterns σ) (config : Config) (encounters : List (Encounter σ)) :
    List Head :=
  (encounters.filterMap (Encounter.match? patterns config)).flatMap
    (·.recording.inserted.map Operation.toHead)

theorem Simplifies.inserted {definitions : Dict Operation} {op : Operation} {names : List String}
    {recording : Recording} (h : Simplifies definitions op names recording) :
    (recording.inserted.map Operation.toHead).flatMap Head.resultNames = names
      ∧ ∀ new ∈ recording.inserted, new.operands = [] := by
  cases h with
  | keep => exact ⟨rfl, nofun⟩
  | fold name result constant =>
      refine ⟨rfl, fun new hnew => ?_⟩
      rw [List.mem_singleton.1 hnew]
      rfl

theorem resultNames_insertedIn (hpatterns : patterns.patterns ⊆ simplifications)
    (encounters : List (Encounter σ)) :
    (insertedIn patterns config encounters).flatMap Head.resultNames
      = drawnIn patterns config encounters := by
  unfold insertedIn drawnIn
  rw [List.flatMap_assoc]
  apply List.flatMap_congr
  intro m hm
  obtain ⟨e, -, hmatch⟩ := List.mem_filterMap.1 hm
  obtain ⟨-, -, hsimplifies⟩ := simplifies_of_match? hpatterns hmatch
  exact hsimplifies.inserted.1

theorem ordered_insertedIn (hpatterns : patterns.patterns ⊆ simplifications)
    (encounters : List (Encounter σ)) (visible : List String) :
    Ordered visible (insertedIn patterns config encounters) := by
  have hnone : ∀ head ∈ insertedIn patterns config encounters, head.operands = [] := by
    intro head hhead
    obtain ⟨m, hm, hhead⟩ := List.mem_flatMap.1 hhead
    obtain ⟨new, hnew, rfl⟩ := List.mem_map.1 hhead
    obtain ⟨e, -, hmatch⟩ := List.mem_filterMap.1 hm
    obtain ⟨-, -, hsimplifies⟩ := simplifies_of_match? hpatterns hmatch
    exact hsimplifies.inserted.2 new hnew
  revert hnone
  generalize insertedIn patterns config encounters = heads
  intro hnone
  induction heads generalizing visible with
  | nil => trivial
  | cons head heads ih =>
      rw [List.forall_mem_cons] at hnone
      refine ⟨fun operand hoperand => ?_, ih _ hnone.2⟩
      rw [hnone.1] at hoperand
      cases hoperand

/-- What a match inserts is inserted in the run. -/
theorem toHead_mem_insertedIn {encounters : List (Encounter σ)} {e : Encounter σ}
    (he : e ∈ encounters) {m : Match} (hmatch : e.match? patterns config = some m) {new : Operation}
    (hnew : new ∈ m.recording.inserted) :
    new.toHead ∈ insertedIn patterns config encounters :=
  List.mem_flatMap.2 ⟨m, List.mem_filterMap.2 ⟨e, he, hmatch⟩, List.mem_map_of_mem hnew⟩

theorem ordered_append_insertedIn (hpatterns : patterns.patterns ⊆ simplifications)
    (huses : root.Scoped []) (encounters : List (Encounter σ)) :
    Ordered [] (root.heads ++ insertedIn patterns config encounters) :=
  (ordered_of_scoped huses).append (ordered_insertedIn hpatterns encounters _)

theorem apart_append_insertedIn (hpatterns : patterns.patterns ⊆ simplifications)
    {encounters : List (Encounter σ)}
    (hnew : (root.definedNames ++ drawnIn patterns config encounters).Nodup) :
    Apart [] (root.heads ++ insertedIn patterns config encounters) := by
  refine ⟨?_, nofun⟩
  rw [List.flatMap_append, resultNames_insertedIn hpatterns]
  exact hnew

/-- The operations of a tree and those that a run inserts explain the matches of the run. -/
theorem explained_behind (encounters : List (Encounter σ)) (hordered : Ordered [] heads)
    (hapart : Apart [] heads) (hsub : insertedIn patterns config encounters ⊆ heads) :
    Explained patterns config (Meaning.behind given heads hordered hapart) given encounters := by
  intro e he m hmatch new hnew
  have hmem := hsub (toHead_mem_insertedIn he hmatch hnew)
  refine ⟨satisfies_foldl hordered hapart new.toHead hmem, fun result hresult => ?_⟩
  exact (typeIn_name hapart hmem hresult).symm

/-- Names have one meaning in the whole of a run, if all that are drawn are new. -/
theorem exists_meaning (hpatterns : patterns.patterns ⊆ simplifications) (given : String → Int)
    (hroot : root.verify = .ok ()) (htyped : root.WellTyped)
    (hwell : ∀ head ∈ root.heads, WellFormed head) {encounters : List (Encounter σ)}
    (hnew : (root.definedNames ++ drawnIn patterns config encounters).Nodup) :
    ∃ meaning : Meaning, (∀ head ∈ root.heads, meaning.Holds given head)
      ∧ Explained patterns config meaning given encounters := by
  have hapart := apart_append_insertedIn hpatterns hnew
  have hordered : Ordered [] (root.heads ++ insertedIn patterns config encounters) :=
    ordered_append_insertedIn hpatterns (verify_eq_ok_iff.1 hroot).1 encounters
  refine ⟨.behind given _ hordered hapart, ?_, ?_⟩
  · exact holds_behind hordered hapart (List.subset_append_left _ _) hroot htyped hwell
  · exact explained_behind encounters hordered hapart (List.subset_append_right _ _)

/-! ### Runs -/

/-- Where arithmetic is well formed, no more names are drawn than there are results. -/
theorem weight_le_definedNames (hwell : ∀ head ∈ root.heads, WellFormed head) :
    weight binaryWeight root ≤ root.definedNames.length := by
  rw [definedNames, List.length_flatMap]
  apply List.sum_le_sum
  intro head hhead
  show binaryWeight head.name ≤ head.resultNames.length
  unfold binaryWeight
  by_cases hbinary : IsBinary head.name
  · obtain ⟨-, -, result, -, hresults, -⟩ := (hwell head hhead).binary hbinary
    rw [if_pos hbinary, Head.resultNames, hresults]
    exact Nat.le_refl _
  · rw [if_neg hbinary]
    exact Nat.zero_le _

/-- All names that are drawn for well-formed arithmetic are new. -/
theorem nodup_append_drawnIn (hpatterns : patterns.patterns ⊆ simplifications) (config : Config)
    (context : Context) (memory : σ) (hroot : root.verify = .ok ())
    (hwell : ∀ head ∈ root.heads, WellFormed head) (hcount : root.definedNames.length ≤ 2 ^ 63) :
    (root.definedNames ++ drawnIn patterns config
      (iterateEncounters patterns config config.maxIterations 0 root
      { context, memory, names := namesFor root })).Nodup := by
  have hweight := weight_le_definedNames hwell
  have haccounts : Accounts patterns config binaryWeight
    (iterate patterns config config.maxIterations 0 { root }) _ _ _
      { context, memory, names := namesFor root } :=
        accounts_iterate config.maxIterations 0 { root } _
  exact nodup_append_of_accounts hpatterns haccounts rfl (verify_eq_ok_iff.1 hroot).2 (by omega)

/-- A tree with the rules of scoping and the effects of another, given the values that no arithmetic
defines. -/
structure SameEffects (quiet : OpName → Bool) (given : String → Int)
    (root op : Operation) : Prop where
  verify : op.verify = .ok ()
  effects : op.effects quiet (evaluate given op.heads)
    = root.effects quiet (evaluate given root.heads)

/-- A run keeps the effects of a tree that one meaning explains. -/
theorem ensures_sameEffects (hpatterns : patterns.patterns ⊆ simplifications) (config : Config)
    {s : State σ} {meaning : Meaning}
    (hquiet : ∀ name, s.context.isPure name = true ∨ isArith name = true → quiet name = true)
    (hroot : root.verify = .ok ()) (hgood : meaning.Good quiet given root)
    (hfaithful : Faithful meaning given s)
    (hbetween : Between root
      (drawnIn patterns config (iterateEncounters patterns config config.maxIterations 0 root s)) s)
    (hexplained : Explained patterns config meaning given
      (iterateEncounters patterns config config.maxIterations 0 root s)) :
    Ensures (rewrite patterns config root) s (fun out _ => SameEffects quiet given root out.2)
      fun _ _ => False := by
  have hscoped : Ensures (iterate patterns config config.maxIterations 0 { root }) s _ _ :=
    Greedy.ensures_iterate config.maxIterations 0 (sound_simplifications hpatterns _) hbetween
  have hkept : Ensures (iterate patterns config config.maxIterations 0 { root }) s _ _ :=
    ensures_iterate hpatterns (fun name h => hquiet name (.inr h)) config.maxIterations 0
      (fun name h => hquiet name (.inl h)) hgood hfaithful hexplained
  have heffects {op : Operation} (hverify : op.verify = .ok ())
    (hop : meaning.Good quiet given op) :
      op.effects quiet (evaluate given op.heads) = op.effects quiet meaning.value :=
    effects_evaluate hverify fun head hhead => ((Meaning.good_iff.1 hop).1 head hhead).satisfies
  apply ensures_rewrite (SameEffects quiet given root) ⟨hroot, rfl⟩
  -- An error would have to blame a pattern and not to blame one.
  refine ((hscoped.and hkept).weaken fun error _ h => h.2 h.1).mono
    fun progress s' _ ⟨hverify, hrun⟩ => ⟨hverify, ?_⟩
  obtain ⟨hgood', hsame⟩ := hrun.head
  rw [heffects hverify hgood', hsame, heffects hroot hgood]

/-- The operations that may go: those that the context takes for pure, and arithmetic. -/
def isQuiet (context : Context) (name : OpName) : Bool := context.isPure name || isArith name

/-- The simplifications are in the order in which they are tried. -/
theorem freeze_simplifications :
    (PatternSet.mk (simplifications (σ := σ))).freeze = ⟨simplifications⟩ :=
  congrArg FrozenPatterns.mk
    (List.mergeSort_of_pairwise
      (by simp [simplifications, foldBinary, addZero, subZero, subSelf, mulOne, mulZero]))

/-- **Canonicalization preserves meaning.** Simplifying well-formed arithmetic succeeds, and all
that is neither pure nor arithmetic stays as it is and where it is, with operands of the same
values. -/
theorem sameEffects_applyGreedily (config : Config) (context : Context) (memory : σ)
    (given : String → Int) (hroot : root.verify = .ok ()) (htyped : root.WellTyped)
    (hleaves : root.QuietLeaves (isQuiet context)) (hwell : ∀ head ∈ root.heads, WellFormed head)
    (hcount : root.definedNames.length ≤ 2 ^ 63) :
    ∃ outcome,
      (applyGreedily (PatternSet.mk simplifications).freeze config root context memory).result
        = .ok outcome
      ∧ SameEffects (isQuiet context) given root
          (applyGreedily (PatternSet.mk simplifications).freeze config root context memory).op := by
  have hpatterns : (PatternSet.mk simplifications).freeze.patterns ⊆ simplifications (σ := σ) := by
    rw [freeze_simplifications]
    exact List.Subset.refl _
  have hnew := nodup_append_drawnIn hpatterns config context memory hroot hwell hcount
  obtain ⟨meaning, hholds, hexplained⟩ := exists_meaning hpatterns given hroot htyped hwell hnew
  have hfaithful : Faithful meaning given
    ({ context, memory, names := namesFor root } : State σ) := by
    refine ⟨fun name op hget => ?_, fun name value hget => ?_, rfl⟩
    · rw [Dict.get?_empty] at hget
      cases hget
    · rw [Dict.get?_empty] at hget
      cases hget
  have hbetween : Between root _ { context, memory, names := namesFor root } :=
    ⟨(verify_eq_ok_iff.1 hroot).1, hnew, rfl, rfl⟩
  have hquiet : ∀ name, context.isPure name = true ∨ isArith name = true →
    isQuiet context name = true := by
    intro name h
    rw [isQuiet, Bool.or_eq_true]
    exact h
  have hrewrite := ensures_sameEffects hpatterns config hquiet hroot
    (Meaning.good_iff.2 ⟨hholds, hleaves⟩) hfaithful hbetween hexplained
  rcases applyGreedily_cases (SameEffects (isQuiet context) given root)
    hrewrite with ⟨outcome, hok, hsame⟩ | ⟨_, _, hfalse, _⟩
  · exact ⟨outcome, hok, hsame⟩
  · exact hfalse.elim

/-- The sum of a value and zero goes, and with it the zero. -/
theorem sameEffects_applyGreedily_sum : ∃ root : Operation, root.definedNames = ["a", "b", "c"]
    ∧ (applyGreedily (σ := Unit) (PatternSet.mk simplifications).freeze {} root
      (.ofRegistry .standard) ()).op.definedNames = ["a"]
    ∧ ∃ outcome,
      (applyGreedily (σ := Unit) (PatternSet.mk simplifications).freeze {} root
        (.ofRegistry .standard) ()).result
        = .ok outcome
      ∧ SameEffects (isQuiet (.ofRegistry .standard)) (fun _ => 5) root
          (applyGreedily (σ := Unit) (PatternSet.mk simplifications).freeze {} root
            (.ofRegistry .standard) ()).op := by
  let a : Value := ⟨"a", .int 8⟩
  let b : Value := ⟨"b", .int 8⟩
  let c : Value := ⟨"c", .int 8⟩
  let root := Operation.module
    [{ name := "test.source", results := [a] }, .constant b 0,
      { name := "arith.addi", operands := [a, b], results := [c] },
      { name := "test.sink", operands := [c] }]
  have hleaves : root.QuietLeaves (isQuiet (.ofRegistry .standard)) :=
    ⟨by decide +kernel, trivial, trivial, trivial, trivial, trivial⟩
  have hnames : (applyGreedily (σ := Unit) (PatternSet.mk simplifications).freeze {} root
    (.ofRegistry .standard) ()).op.definedNames
      = ["a"] := by
    rw [freeze_simplifications]
    decide +kernel
  exact ⟨root, by decide +kernel, hnames,
    sameEffects_applyGreedily _ _ _ _ rfl (by decide +kernel) hleaves (by decide +kernel)
      (by decide +kernel)⟩

/-- Arithmetic goes even where the context does not take it for pure, because its dialect is not
available. -/
theorem exists_removed_not_isPure : ∃ root : Operation, root.verify = .ok () ∧ root.WellTyped
    ∧ root.QuietLeaves (Context.isPure default) ∧ (∀ head ∈ root.heads, WellFormed head)
    ∧ ∃ head ∈ root.heads, Context.isPure default head.name = false
      ∧ ∀ other ∈ (applyGreedily (σ := Unit) (PatternSet.mk simplifications).freeze {} root
        default ()).op.heads, other.name ≠ head.name := by
  let a : Value := ⟨"a", .int 8⟩
  let b : Value := ⟨"b", .int 8⟩
  let c : Value := ⟨"c", .int 8⟩
  let root := Operation.module
    [{ name := "test.source", results := [a] }, .constant b 0,
      { name := "arith.addi", operands := [a, b], results := [c] },
      { name := "test.sink", operands := [c] }]
  have hleaves : root.QuietLeaves (Context.isPure default) :=
    ⟨by decide +kernel, trivial, trivial, trivial, trivial, trivial⟩
  refine ⟨root, rfl, by decide +kernel, hleaves, by decide +kernel, ?_⟩
  rw [freeze_simplifications]
  decide +kernel

end Arith

end DialectIR
