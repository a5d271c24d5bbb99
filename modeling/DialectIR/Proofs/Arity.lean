import DialectIR.Proofs.Idempotence
import DialectIR.Proofs.Presentable

/-! Canonicalization of modules that were read. The reader accepts arithmetic with any number of
operands and results. Simplifications leave it alone unless it has two operands. Of what has two,
they fail on what they make something of although it has not one result; it is found in the module
which operations that are. -/

namespace DialectIR

open Operation Greedy

variable {σ : Type}

/-- The pattern, tried on the operation, records this. -/
def Pattern.Makes (pattern : Pattern σ) (op : Operation) (recording : Recording) : Prop :=
  ∃ definitions names, pattern.DoesOn op definitions fun answer drawn made =>
    answer = .ok true ∧ drawn = names ∧ made = recording

namespace Arith

variable {pattern : Pattern σ} {op : Operation} {source : String} {context after : Context}
  {m : Operation}

theorem onTwoOperands_of_length_ne (f : Value → Value → Attempt σ Bool)
    (h : op.operands.length ≠ 2) :
    onTwoOperands f op = pure false := by
  unfold onTwoOperands
  split
  next lhs rhs hoperands => exact absurd (congrArg List.length hoperands) h
  next => rfl

/-- **Simplifications are for two operands.** Other operations they leave alone. -/
theorem rewrite_of_operands_ne (hpattern : pattern ∈ simplifications) (h : op.operands.length ≠ 2) :
    pattern.rewrite op = pure false := by
  simp only [simplifications, List.mem_cons, List.not_mem_nil, or_false] at hpattern
  rcases hpattern with rfl | rfl | rfl | rfl | rfl | rfl <;> exact onTwoOperands_of_length_ne _ h

theorem Simplifies.results_length {definitions : Dict Operation} {names : List String}
    {recording : Recording} (h : Simplifies definitions op names recording) :
    op.results.length = 1 := by
  cases h with
  | keep _ _ _ hresults => exact hresults
  | fold _ _ _ _ hresults => exact congrArg List.length hresults

theorem dialect_of_isBinary {name : OpName} (h : IsBinary name) : name.dialect = "arith" := by
  rcases h with rfl | rfl | rfl
  all_goals decide +kernel

/-- Where a module that was read holds arithmetic, its simplifications are there. -/
theorem collected_of_parse (hcontext : (Context.ofRegistry .standard).Uses context)
    (h : parse source context = (.ok m, after))
    (harith : ∃ head ∈ m.heads, head.name.dialect = "arith") :
    after.KnowsArith ∧ after.collected (σ := σ) = simplifications := by
  have hspace : after.KnowsArith := (Context.knowsArith_standard.of_uses hcontext).of_uses
    (loads_of_parse h).uses
  obtain ⟨head, hhead, hdialect⟩ := harith
  have hmet : after.Met "arith" := by
    refine hdialect ▸ ((met_of_parse h).2 head hhead).resolve_left fun hmodule => ?_
    have hbuiltin : OpName.dialect "builtin.module" ≠ "arith" := by decide +kernel
    exact hbuiltin (hmodule ▸ hdialect)
  refine ⟨hspace, if_pos (hmet.resolve_right ?_)⟩
  rw [hspace.arith]
  exact Option.some_ne_none _

/-- What is stuck in a module that was read is inside it. -/
theorem nested_of_stuck (h : parse source context = (.ok m, after))
    {found : String → Option Finding} {head : Head} (hhead : head ∈ m.heads)
    (hstuck : Stuck found head) : head ∈ headsOfAll m.nested := by
  obtain ⟨tokens, ops, -, -, rfl⟩ := Parse.topLevel_of_parse h
  rw [heads_eq] at hhead
  rcases List.mem_cons.1 hhead with rfl | hhead
  · obtain ⟨reduct, hreduct⟩ := Option.isSome_iff_exists.1 hstuck.1
    have hbinary : IsBinary (Parse.asModule ops).name := isBinary_of_reduct? hreduct
    rw [name_asModule] at hbinary
    exact absurd hbinary (by decide)
  · exact hhead

/-- **What is found in a module that was read comes true** when it is simplified. -/
theorem applyGreedily_of_parse (hlength : source.length ≤ 2 ^ 64)
    (hcontext : (Context.ofRegistry .standard).Uses context)
    (h : parse source context = (.ok m, after)) (noted : Context) (memory : σ) :
    ((∃ outcome, (applyGreedily ⟨after.collected⟩ {} m noted memory).result = .ok outcome)
        ∧ ∀ head ∈ m.heads, ¬ Stuck (findings m.heads) head)
      ∨ ∃ error, (applyGreedily ⟨after.collected⟩ {} m noted memory).result = .error error
        ∧ Strands σ (findings m.heads) m.heads error := by
  obtain ⟨hverify, hroom⟩ := room_of_parse hlength h
  have hsweep (s : State σ) (_ : s.Begins m noted)
      (hbetween : Between m
        (drawnIn ⟨simplifications⟩ {} (sweepEncounters ⟨simplifications⟩ {} m s)) s) :
      Ensures (sweep ⟨simplifications⟩ {} m) s
        (fun _ _ => ∀ head ∈ headsOfAll m.nested, ¬ Stuck (findings m.heads) head)
        fun error _ => Strands σ (findings m.heads) (headsOfAll m.nested) error :=
    (ensures_sweep_foretold rfl hbetween).mono fun _ _ _ hswept => hswept.2 rfl
  by_cases harith : (after.loaded? "arith").isSome
  · have hcollected : after.collected (σ := σ) = simplifications := if_pos harith
    rw [hcollected]
    rcases applyGreedily_of_swept {} memory hverify (typed_of_parse h) hroom
      rfl rfl (by decide) hsweep with
      ⟨outcome, swept, hresult, -, -, -, hfree, -⟩ | ⟨error, hresult, hstrands⟩
    · exact .inl ⟨⟨outcome, hresult⟩, fun head hhead hstuck =>
        hfree head (nested_of_stuck h hhead hstuck) hstuck⟩
    · exact .inr ⟨error, hresult, hstrands.mono fun head hhead =>
        heads_eq m ▸ List.mem_cons_of_mem _ hhead⟩
  · have hcollected : after.collected (σ := σ) = [] := if_neg harith
    obtain ⟨hok, -⟩ := applyGreedily_of_no_patterns m noted memory
    refine .inl ⟨hcollected ▸ hok, fun head hhead hstuck => ?_⟩
    obtain ⟨reduct, hreduct⟩ := Option.isSome_iff_exists.1 hstuck.1
    obtain ⟨-, hall⟩ := collected_of_parse (σ := σ) hcontext h
      ⟨head, hhead, dialect_of_isBinary (isBinary_of_reduct? hreduct)⟩
    rw [hcollected] at hall
    cases hall

end Arith

namespace PassManager

open Arith

/-- **Canonicalization of a module that was read** succeeds just if nothing is stuck in it, in view
of what is found in the module: no arithmetic on two operands that would be replaced, but that has
more or less than one result. If it fails, it is on one that is stuck, and the module is left. (A
text in memory has less than `2 ^ 64` characters.) -/
theorem run_canonicalizer_of_parse {source : String} {context after : Context} {m : Operation}
    (hlength : source.length ≤ 2 ^ 64) (hcontext : (Context.ofRegistry .standard).Uses context)
    (h : parse source context = (.ok m, after)) (printing : Bool) (memory : σ)
    {left : Transformed σ} (hleft : ((canonicalizer printing).run m ⟨after, memory⟩).1 = left) :
    (∀ pattern ∈ simplifications (σ := σ), ∀ op : Operation,
        (op.operands.length ≠ 2 → pattern.rewrite op = pure false)
          ∧ (pattern.appliesTo op.name = true → op.results.length ≠ 1 →
            ∀ recording, ¬ pattern.Makes op recording))
      ∧ ((∃ changed, left.result = .ok changed) ↔ ∀ head ∈ m.heads, ¬ Stuck (findings m.heads) head)
      ∧ ∀ error, left.result = .error error → left.op = m
        ∧ ∃ cause, error = .inPass "canonicalize" cause
        ∧ Strands σ (findings m.heads) m.heads cause := by
  refine ⟨fun pattern hpattern op =>
    ⟨rewrite_of_operands_ne hpattern, fun happlies hresults recording hmakes => ?_⟩, ?_⟩
  · obtain ⟨_, _, hdoes⟩ := hmakes
    exact hresults (simplifies_of_doesOn hpattern happlies hdoes).results_length
  · have hspace : after.KnowsArith := (Context.knowsArith_standard.of_uses hcontext).of_uses
      (loads_of_parse h).uses
    rw [run_canonicalizer hspace] at hleft
    dsimp only at hleft
    generalize canonicalizing printing m ⟨after, memory⟩ = noted at hleft
    rcases applyGreedily_of_parse hlength hcontext h noted memory with ⟨⟨outcome, hresult⟩, hfree⟩
      | ⟨cause, hresult, hstrands⟩
    · have hok : left.result = .ok outcome.changed :=
        hleft ▸ Rewritten.result_transformed hresult _ _
      refine ⟨⟨fun _ => hfree, fun _ => ⟨_, hok⟩⟩, fun error herror => ?_⟩
      rw [hok] at herror
      cases herror
    · have hfails : left = ⟨.error (.inPass "canonicalize" cause), m, left.space⟩ := by
        rw [← hleft, Rewritten.transformed, hresult]
      rw [hfails]
      refine ⟨⟨fun hok => ?_, fun hfree => ?_⟩, fun error herror => ⟨rfl, cause, ?_, hstrands⟩⟩
      · obtain ⟨changed, hok⟩ := hok
        cases hok
      · obtain ⟨head, hhead, hstuck, -⟩ := hstrands
        exact absurd hstuck (hfree head hhead)
      · exact (Except.error.inj herror).symm

/-- A product without operands is left alone, and so is a sum without results, as nothing is known
of its operands. Where they are found to be constants, canonicalization fails on the sum. -/
theorem run_canonicalizer_of_parse_sums :
    (∃ (m : Operation) (after : Context) (left : Transformed Unit) (changed : Bool),
      parse "%a = arith.muli : i8\narith.addi %a, %a" (.ofRegistry .standard) = (.ok m, after)
        ∧ ((canonicalizer false).run m ⟨after, ()⟩).1 = left ∧ left.result = .ok changed)
    ∧ ∃ (m : Operation) (after : Context) (left : Transformed Unit) (cause : Error),
      parse ("%a = arith.constant \x7bvalue = 3 : i8\x7d : i8\n"
          ++ "%b = arith.subi %a, %a : i8\narith.addi %b, %b") (.ofRegistry .standard)
        = (.ok m, after)
        ∧ ((canonicalizer false).run m ⟨after, ()⟩).1 = left
        ∧ left.result = .error (.inPass "canonicalize" cause) ∧ left.op = m := by
  let a : Value := ⟨"a", .int 8⟩
  let b : Value := ⟨"b", .int 8⟩
  have hread {source : String} {m : Operation}
      (h : (parse source (.ofRegistry .standard)).1.toOption = some m) :
      parse source (.ofRegistry .standard) = (.ok m, (parse source (.ofRegistry .standard)).2) :=
    Prod.ext (eq_ok_of_toOption h) rfl
  constructor
  · let m := Operation.module
      [{ name := "arith.muli", results := [a] }, { name := "arith.addi", operands := [a, a] }]
    have hparse := @hread "%a = arith.muli : i8\narith.addi %a, %a" m (by decide +kernel)
    obtain ⟨-, hiff, -⟩ := run_canonicalizer_of_parse (by decide +kernel) (.refl _)
      hparse false () rfl
    obtain ⟨changed, hok⟩ := hiff.2 (by decide +kernel)
    exact ⟨m, _, _, changed, hparse, rfl, hok⟩
  · let m := Operation.module
      [.constant a 3, { name := "arith.subi", operands := [a, a], results := [b] },
        { name := "arith.addi", operands := [b, b] }]
    have hparse := @hread ("%a = arith.constant \x7bvalue = 3 : i8\x7d : i8\n"
      ++ "%b = arith.subi %a, %a : i8\narith.addi %b, %b") m (by decide +kernel)
    have hstuck : ∃ head ∈ m.heads, Stuck (findings m.heads) head := by decide +kernel
    obtain ⟨-, hiff, hfails⟩ := run_canonicalizer_of_parse (by decide +kernel) (.refl _)
      hparse false () rfl
    generalize hleft : ((canonicalizer false).run m _).1 = left at hiff hfails
    rcases hresult : left.result with error | changed
    · obtain ⟨hop, cause, rfl, -⟩ := hfails error hresult
      exact ⟨m, _, left, cause, hparse, hleft, hresult, hop⟩
    · obtain ⟨head, hhead, hstuck⟩ := hstuck
      exact absurd hstuck (hiff.1 ⟨changed, hresult⟩ head hhead)

/-- A sum of two constants that has no result is read, and canonicalization fails on it. -/
theorem exists_canonicalizer_fails : ∃ (source : String) (m : Operation) (after : Context),
    parse source (.ofRegistry .standard) = (.ok m, after)
      ∧ ∀ changed, ((canonicalizer false).run m ⟨after, ()⟩).1.result ≠ .ok changed := by
  let source := "%a = arith.constant \x7bvalue = 1 : i8\x7d : i8\narith.addi %a, %a"
  let a : Value := ⟨"a", .int 8⟩
  let m := Operation.module [.constant a 1, { name := "arith.addi", operands := [a, a] }]
  let after := (parse source (.ofRegistry .standard)).2
  have hparse : (parse source (.ofRegistry .standard)).1.toOption = some m := by decide +kernel
  have hspace : after.KnowsArith := by
    have hloads := loads_parse source (.ofRegistry .standard)
    exact Context.knowsArith_standard.of_uses hloads.uses
  have hfails : ((canonicalizer false).run m ⟨after, ()⟩).1.result.toOption = none := by
    rw [run_canonicalizer hspace]
    decide +kernel
  refine ⟨source, m, after, Prod.ext (eq_ok_of_toOption hparse) rfl, fun changed hok => ?_⟩
  rw [hok] at hfails
  cases hfails

end PassManager

end DialectIR
