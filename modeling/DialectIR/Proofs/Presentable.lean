import DialectIR.Proofs.Legible
import DialectIR.Proofs.LoweredTree
import DialectIR.Proofs.NormalForm
import DialectIR.Proofs.ReaderContext
import DialectIR.Proofs.RoundTrip
import DialectIR.Proofs.TokenCount

/-! Modules that can be printed and read back, and rewriting that leaves them so: simplification,
lowering and the removal of dead operations. -/

namespace DialectIR

open Operation Greedy Arith

variable {σ : Type} {context other : Context} {root op : Operation}

/-- The module can be printed and read back in a context, and there are numbers of 64 bits for all
results and for the operations on two integers, each of which may become a new constant. -/
structure Presentable (context : Context) (root : Operation) : Prop where
  name : root.name = "builtin.module"
  verify : root.verify = .ok ()
  typed : root.WellTyped
  heads : ∀ head ∈ root.heads, head.Legible ∧ context.Accepts head.name
  room : root.definedNames.length + weight binaryWeight root ≤ 2 ^ 64

namespace Presentable

theorem writable (h : Presentable context root) : ∀ head ∈ root.heads, head.Writable context := by
  have hname : ∀ value ∈ root.allResults, Text.IsNamePart value.name := by
    intro value hvalue
    obtain ⟨head, hhead, hresult⟩ := List.mem_flatMap.1 hvalue
    exact ((h.heads head hhead).1.results value hresult).1
  intro head hhead
  obtain ⟨hlegible, haccepts⟩ := h.heads head hhead
  refine ⟨hlegible.name, haccepts, fun value hvalue => hname value ?_,
    fun result hresult => (hlegible.results result hresult).2, hlegible.attributes⟩
  rcases List.mem_append.1 hvalue with hoperand | hresult
  · exact operands_subset_allResults h.verify h.typed (List.mem_flatMap.2 ⟨head, hhead, hoperand⟩)
  · exact List.mem_flatMap.2 ⟨head, hhead, hresult⟩

theorem congr (h : Presentable context root) (hsame : context.SameDialects other) :
    Presentable other root :=
  ⟨h.name, h.verify, h.typed, fun head hhead =>
    (h.heads head hhead).imp_right (hsame.accepts_iff head.name).2, h.room⟩

/-- A presentable module is read back. -/
theorem parse (h : Presentable context root) : (parse root.text context).1 = .ok root := by
  have htop := @Parse.topLevel_printed context root
    ⟨.eof, "", Location.start.after root.text.toList⟩ rfl .start h.verify h.typed h.writable
  have hself : Parse.asModule [root] = root := by
    rw [Parse.asModule, if_pos h.name]
  rw [DialectIR.parse, Layout.scan_text h.writable]
  simp only [Parse.module, htop]
  show Except.ok (Parse.asModule [root]) = Except.ok root
  rw [hself]

end Presentable

theorem name_asModule (ops : List Operation) : (Parse.asModule ops).name = "builtin.module" := by
  unfold Parse.asModule
  split
  · split
    next h => exact h
    next => rfl
  · rfl

theorem weight_asModule_le (ops : List Operation) :
    weight binaryWeight (Parse.asModule ops) ≤ (headsOfAll ops).length := by
  rcases Parse.asModule_cases ops with ⟨op, rfl, hop⟩ | hnew
  · rw [hop, headsOfAll_singleton]
    exact weight_le_length op.heads
  · rw [hnew, weight_eq]
    have hnone : binaryWeight "builtin.module" = 0 := by decide
    have hname : (Operation.module ops).name = "builtin.module" := rfl
    rw [hname, hnone, Nat.zero_add]
    exact weight_le_length (headsOfAll ops)

theorem legible_module : (Operation.module []).toHead.Legible := ⟨by decide +kernel, nofun, nofun⟩

/-- What is read obeys the rules of scoping, and there are numbers of 64 bits for all values that
simplifying it may need. -/
theorem room_of_parse {source : String} {context after : Context} {m : Operation}
    (hlength : source.length ≤ 2 ^ 64) (h : parse source context = (.ok m, after)) :
    m.verify = .ok () ∧ m.definedNames.length + weight binaryWeight m ≤ 2 ^ 64 := by
  obtain ⟨tokens, ops, hscan, htop, rfl⟩ := Parse.topLevel_of_parse h
  obtain ⟨hscoped, hnodup, -, -⟩ := Parse.readsAll_of_topLevel (Token.marked_of_mem_scan hscan) htop
  obtain ⟨huses, hnames, -, -⟩ := Parse.asModule_facts ops
  have hextent := Parse.extent_le_of_topLevel (Token.scanned_of_scan hscan) htop
  have hweight := weight_asModule_le ops
  unfold Parse.extent at hextent
  rw [← hnames] at hnodup hextent
  refine ⟨verify_eq_ok_iff.2 ⟨huses hscoped, hnodup⟩, ?_⟩
  omega

theorem typed_of_parse {source : String} {context after : Context} {m : Operation}
    (h : parse source context = (.ok m, after)) :
    m.WellTyped := by
  obtain ⟨tokens, ops, hscan, htop, rfl⟩ := Parse.topLevel_of_parse h
  obtain ⟨-, hnodup, hoperands, -⟩ := Parse.readsAll_of_topLevel
    (Token.marked_of_mem_scan hscan) htop
  obtain ⟨-, hnames, hallOperands, hallResults⟩ := Parse.asModule_facts ops
  rw [← hnames] at hnodup
  rw [← hallOperands, ← hallResults] at hoperands
  exact wellTyped_of_subset hnodup hoperands

/-- **What is read from a text without floating point literals is presentable**; dialects are loaded
at most. -/
theorem presentable_of_parse {source : String} {m : Operation} (hlength : source.length ≤ 2 ^ 64)
    (hfloat : ∀ tokens, Token.scan source = .ok tokens → ∀ token ∈ tokens, token.kind ≠ .float)
    (hmodule : context.Accepts "builtin.module") (h : parse source context = (.ok m, other)) :
    Presentable context m ∧ context.Loads other := by
  obtain ⟨hverify, hroom⟩ := room_of_parse hlength h
  have htyped := typed_of_parse h
  have hloads := loads_of_parse h
  obtain ⟨tokens, ops, hscan, htop, rfl⟩ := Parse.topLevel_of_parse h
  obtain ⟨-, -, -, hwell⟩ := Parse.readsAll_of_topLevel (Token.marked_of_mem_scan hscan) htop
  have hlegible := Parse.legible_of_topLevel (Token.scanned_of_scan hscan)
    (hfloat tokens hscan) htop
  refine ⟨⟨name_asModule ops, hverify, htyped, ?_, hroom⟩, hloads⟩
  have hread : ∀ head ∈ headsOfAll ops, head.Legible ∧ context.Accepts head.name :=
    fun head hhead => ⟨hlegible head hhead, (hwell head hhead).accepted⟩
  rcases Parse.asModule_cases ops with ⟨op, rfl, hop⟩ | hnew
  · rw [hop]
    rwa [headsOfAll_singleton] at hread
  · rw [hnew, heads_eq]
    exact List.forall_mem_cons.2 ⟨⟨legible_module, hmodule⟩, hread⟩

namespace Presentable

/-- What becomes of the operations of a presentable module one by one, or of some of them. -/
theorem of_sublist {f : Head → Head} (h : Presentable context root) (hname : op.name = root.name)
    (huses : op.Scoped []) (hheads : op.heads.Sublist (root.heads.map f))
    (hresults : ∀ head, (f head).results = head.results)
    (hoperands : ∀ head, (f head).operands ⊆ head.operands)
    (hgood : ∀ head ∈ root.heads, (f head).Legible ∧ context.Accepts (f head).name)
    (hweight : ∀ head, binaryWeight (f head).name ≤ binaryWeight head.name) :
    Presentable context op := by
  have hnames : op.definedNames.Sublist root.definedNames := by
    have hmap : (root.heads.map f).flatMap Head.resultNames = root.definedNames := by
      rw [List.flatMap_map]
      refine List.flatMap_congr fun head _ => ?_
      rw [Head.resultNames, Head.resultNames, hresults]
    rw [← hmap]
    exact hheads.flatMap Head.resultNames
  have hfrom : ∀ head ∈ op.heads, ∃ before ∈ root.heads, f before = head :=
    fun head hhead => List.mem_map.1 (hheads.subset hhead)
  refine ⟨hname.trans h.name, verify_eq_ok_iff.2 ⟨huses, (verify_eq_ok_iff.1 h.verify).2.sublist hnames⟩,
    fun operand hoperand result hresult => h.typed operand ?_ result ?_, fun head hhead => ?_, ?_⟩
  · obtain ⟨head, hhead, hoperand⟩ := List.mem_flatMap.1 hoperand
    obtain ⟨before, hbefore, rfl⟩ := hfrom head hhead
    exact List.mem_flatMap.2 ⟨before, hbefore, hoperands before hoperand⟩
  · obtain ⟨head, hhead, hresult⟩ := List.mem_flatMap.1 hresult
    obtain ⟨before, hbefore, rfl⟩ := hfrom head hhead
    exact List.mem_flatMap.2 ⟨before, hbefore, hresults before ▸ hresult⟩
  · obtain ⟨before, hbefore, rfl⟩ := hfrom head hhead
    exact hgood before hbefore
  · have hless : weight binaryWeight op ≤ weight binaryWeight root := by
      calc weight binaryWeight op
          ≤ ((root.heads.map f).map fun head => binaryWeight head.name).sum :=
            (hheads.map _).sum_le_sum fun _ _ => Nat.zero_le _
        _ = (root.heads.map fun head => binaryWeight (f head).name).sum := by
            rw [List.map_map]
            rfl
        _ ≤ weight binaryWeight root := List.sum_le_sum fun head _ => hweight head
    exact Nat.le_trans (Nat.add_le_add hnames.length_le hless) h.room

end Presentable

/-- Removing dead operations leaves a presentable module so. -/
theorem Presentable.removeDeadOps (h : Presentable context root) (other : Context) :
    Presentable context (root.removeDeadOps other).op := by
  have hprune (op : Operation) (later : Context) (_ : other.SameDialects later)
      (hop : op.name = root.name ∧ op.Scoped [] ∧ op.heads.Sublist root.heads) :
      (op.prune (later.isDead op.usedNames)).name = root.name
        ∧ (op.prune (later.isDead op.usedNames)).Scoped []
        ∧ (op.prune (later.isDead op.usedNames)).heads.Sublist root.heads := by
    refine ⟨?_, scoped_prune hop.2.1, (heads_prune _ op).trans hop.2.2⟩
    rw [toHead_prune, hop.1]
  obtain ⟨⟨hname, huses, hheads⟩, -⟩ :=
    removeDeadOps_induction other hprune ⟨rfl, (verify_eq_ok_iff.1 h.verify).1, List.Sublist.refl _⟩
  exact h.of_sublist (f := id) hname huses (by rwa [List.map_id]) (fun _ => rfl)
    (fun _ => List.Subset.refl _) h.heads
    fun _ => Nat.le_refl _

/-! ### Simplification -/

namespace Arith

variable {patterns : FrozenPatterns σ} {config : Config}

/-- Fresh names consist of digits. -/
theorem isNamePart_of_draws {supply after : NameSupply} {names : List String}
    (h : supply.Draws names after) :
    ∀ name ∈ names, Text.IsNamePart name := by
  induction names generalizing supply with
  | nil => exact nofun
  | cons name names ih =>
      refine List.forall_mem_cons.2 ⟨fun c hc => ?_, ih h.2⟩
      rw [← h.1, NameSupply.fresh] at hc
      dsimp only at hc
      rw [Nat.toString_eq_ofList_toDigits, String.toList_ofList] at hc
      exact Layout.continuesName_of_isDigit (Text.isDigit_of_mem_toDigits hc)

theorem legible_constant {result : Value} (hname : Text.IsNamePart result.name)
    (hty : result.ty.Writable) (value : Int64) :
    (Operation.constant result value).toHead.Legible := by
  have hbare : Text.IsBare "arith.constant" ∧ "arith.constant" ≠ "module" := by decide +kernel
  have hkey : Text.IsBare "value" := by decide +kernel
  refine ⟨hbare, List.forall_mem_singleton.2 ⟨hname, hty⟩, fun entry hentry => ?_⟩
  rcases Dict.key_mem_insertEntry hentry with rfl | hentry
  · exact ⟨hkey, result.ty.truncate_truncate value, hty⟩
  · cases hentry

/-- What is kept in a run: operations that can be written and whose results are among the given
values. -/
def Lasting (context : Context) (values : List Value) (head : Head) : Prop :=
  head.results ⊆ values ∧ head.Legible ∧ context.Accepts head.name

theorem Lasting.mapOperands {values : List Value} (head : Head) (f : Value → Value)
    (h : Lasting context values head) :
    Lasting context values (head.mapOperands f) :=
  ⟨h.1, ⟨h.2.1.name, h.2.1.results, h.2.1.attributes⟩, h.2.2⟩

/-- New constants have names that can be written and types that could be written before. -/
theorem upholds_lasting (hpatterns : patterns.patterns ⊆ simplifications)
    {encounters : List (Encounter σ)} {values : List Value}
    (hvalues : (insertedIn patterns config encounters).flatMap (·.results) ⊆ values)
    (hdrawn : ∀ name ∈ drawnIn patterns config encounters, Text.IsNamePart name)
    (haccepts : context.Accepts "arith.constant") :
    Upholds patterns config (Lasting context values) (· ∈ values) encounters := by
  refine upholds_simplifications hpatterns fun e he hop m hmatch new hnew => ?_
  have hresults : new.results ⊆ values := fun result hresult =>
    hvalues (List.mem_flatMap.2 ⟨new.toHead, toHead_mem_insertedIn he hmatch hnew, hresult⟩)
  obtain ⟨-, -, hsimplifies⟩ := simplifies_of_match? hpatterns hmatch
  have hnames : ∀ name ∈ m.drawn, Text.IsNamePart name :=
    fun name hname => hdrawn name
      (List.mem_flatMap.2 ⟨m, List.mem_filterMap.2 ⟨e, he, hmatch⟩, hname⟩)
  obtain ⟨visible, op, drawn, recording⟩ := m
  dsimp only at hsimplifies hnew hnames
  cases hsimplifies with
  | keep => cases hnew
  | fold name result constant _ hone =>
      obtain rfl := List.mem_singleton.1 hnew
      have hty : (Value.mk name result.ty).ty.Writable :=
        (hop.2.1.results result (hone ▸ List.mem_cons_self)).2
      exact ⟨⟨hresults, legible_constant (hnames name List.mem_cons_self) hty constant, haccepts⟩,
        hresults⟩

/-- A tree of lasting operations, whose values are among some with distinct names. -/
theorem presentable_of_lasting {values : List Value} (hvalues : (values.map Value.name).Nodup)
    (hname : op.name = "builtin.module") (hverify : op.verify = .ok ())
    (hheads : ∀ head ∈ op.heads, Meets (Lasting context values) (· ∈ values) head)
    (hroom : values.length + weight binaryWeight op ≤ 2 ^ 64) : Presentable context op := by
  have hresults : op.allResults ⊆ values := by
    intro result hresult
    obtain ⟨head, hhead, hresult⟩ := List.mem_flatMap.1 hresult
    exact (hheads head hhead).good.1 hresult
  refine ⟨hname, hverify, fun operand hoperand result hresult hsame => ?_,
    fun head hhead => (hheads head hhead).good.2, ?_⟩
  · obtain ⟨head, hhead, hoperand⟩ := List.mem_flatMap.1 hoperand
    exact congrArg Value.ty
      (List.inj_on_of_nodup_map hvalues (hresults hresult)
        ((hheads head hhead).fit operand hoperand) hsame)
  · have hnodup := (verify_eq_ok_iff.1 hverify).2
    rw [definedNames_eq_map] at hnodup
    have hlength := (List.subperm_of_subset hnodup.of_map hresults).length_le
    rw [definedNames_eq_map, List.length_map]
    omega

/-- **Simplification leaves a presentable module so.** -/
theorem ensures_rewrite_presentable (hpatterns : patterns.patterns ⊆ simplifications)
    (config : Config) (memory : σ) (h : Presentable context root)
    (haccepts : context.Accepts "arith.constant") :
    Ensures (rewrite patterns config root) { context := other, memory, names := namesFor root }
      (fun out _ => Presentable context out.2) fun _ _ => True := by
  obtain ⟨huses, hnodup⟩ := verify_eq_ok_iff.1 h.verify
  have haccounts : Accounts patterns config binaryWeight
    (iterate patterns config config.maxIterations 0 { root })
      (fun progress => weight binaryWeight progress.root) _ _
        { context := other, memory, names := namesFor root } :=
    accounts_iterate config.maxIterations 0 { root } _
  have hnew := nodup_append_of_accounts hpatterns haccounts rfl hnodup h.room
  have hbetween : Between root _ ({ context := other, memory, names := namesFor root } : State σ) :=
    ⟨huses, hnew, rfl, rfl⟩
  have hscoped : Ensures (iterate patterns config config.maxIterations 0 { root }) _ _ _ :=
    Greedy.ensures_iterate config.maxIterations 0 (sound_simplifications hpatterns _) hbetween
  obtain ⟨after, hdraws⟩ := haccounts.draws
  dsimp only at haccounts hdraws
  generalize hencounters : iterateEncounters patterns config config.maxIterations 0 root
    { context := other, memory, names := namesFor root } = encounters at haccounts hdraws hnew
  -- All values of the run: those of the tree, and those that are drawn.
  have hvalues : (root.allResults ++ (insertedIn patterns config encounters).flatMap
    (·.results)).map Value.name
      = root.definedNames ++ drawnIn patterns config encounters := by
    rw [List.map_append, ← definedNames_eq_map, List.map_flatMap,
      ← resultNames_insertedIn hpatterns]
    rfl
  have hinserted := List.subset_append_right root.allResults
    ((insertedIn patterns config encounters).flatMap (·.results))
  have hresults := List.subset_append_left root.allResults
    ((insertedIn patterns config encounters).flatMap (·.results))
  generalize root.allResults ++ (insertedIn patterns config encounters).flatMap (·.results)
    = values at hvalues hinserted hresults
  have hupholds := upholds_lasting hpatterns hinserted (isNamePart_of_draws hdraws) haccepts
  have hheads : ∀ head ∈ root.heads, Meets (Lasting context values) (· ∈ values) head := by
    refine fun head hhead =>
      ⟨⟨fun result hresult => ?_, h.heads head hhead⟩, fun operand hoperand => ?_⟩
    · exact hresults (List.mem_flatMap.2 ⟨head, hhead, hresult⟩)
    · exact hresults
        (operands_subset_allResults h.verify h.typed (List.mem_flatMap.2 ⟨head, hhead, hoperand⟩))
  have hstart : State.Tended (Lasting context values) (· ∈ values)
    ({ context := other, memory, names := namesFor root } : State σ) := by
    refine ⟨fun name op hget => ?_, fun name value hget => ?_⟩
    · rw [Dict.get?_empty] at hget
      cases hget
    · rw [Dict.get?_empty] at hget
      cases hget
  have hthrifty : Thrifty patterns config binaryWeight encounters :=
    thrifty_simplifications hpatterns encounters
  rw [← hencounters] at hupholds
  have htended : Ensures (iterate patterns config config.maxIterations 0 { root }) _ _ _ :=
    ensures_iterate_tended Lasting.mapOperands config.maxIterations 0 hupholds hheads hstart
  apply ensures_rewrite (Presentable context) h
  refine ((hscoped.and htended).weaken fun _ _ _ => trivial).mono
    fun progress s' hreturns ⟨hverify, hmeets⟩ => ?_
  have hsize := haccounts.size progress s' hreturns hthrifty
  refine presentable_of_lasting (hvalues ▸ hnew) ((name_of_returns_iterate hreturns).trans h.name)
    hverify hmeets ?_
  have hlength := congrArg List.length hvalues
  rw [List.length_map, List.length_append] at hlength
  have hroom := h.room
  omega

end Arith

namespace Lowering

/-- The operation, or what stands for it. -/
def stands (head : Head) : Head := (lowered? head).getD head

/-- The names of what operations are lowered to. -/
def names : List OpName := ["llvm.mlir.constant", "llvm.add", "llvm.sub", "llvm.mul"]

theorem lowered?_cases {head new : Head} (h : lowered? head = some new) :
    new.name ∈ names ∧ new.operands ⊆ head.operands ∧ new.results = head.results
      ∧ new.attributes = head.attributes := by
  unfold lowered? at h
  split_ifs at h <;> cases h
  · exact ⟨by simp [names], List.nil_subset _, rfl, rfl⟩
  all_goals exact ⟨by simp [names], List.Subset.refl _, rfl, rfl⟩

theorem stands_results (head : Head) : (stands head).results = head.results := by
  unfold stands
  cases h : lowered? head with
  | some new => exact lowered?_results h
  | none => rfl

theorem stands_operands (head : Head) : (stands head).operands ⊆ head.operands := by
  unfold stands
  cases h : lowered? head with
  | some new => exact (lowered?_cases h).2.1
  | none => exact List.Subset.refl _

mutual

/-- What is lowered stands for operations of the tree. -/
theorem heads_lower : (op : Operation) → (lower op).heads.Sublist (op.heads.map stands)
  | ⟨head, none⟩ => List.Sublist.refl _
  | ⟨head, some ops⟩ => by
      rw [lower, heads, List.map_cons, stands]
      cases lowered? head with
      | some new => exact (List.nil_sublist _).cons_cons new
      | none => exact (headsOfAll_lowerAll ops).cons_cons head

theorem headsOfAll_lowerAll :
    (ops : List Operation) → (headsOfAll (lowerAll ops)).Sublist ((headsOfAll ops).map stands)
  | [] => List.Sublist.refl _
  | op :: ops => by
      rw [lowerAll, headsOfAll, headsOfAll, List.map_append]
      exact (heads_lower op).append (headsOfAll_lowerAll ops)

end

theorem resultNames_lower (op : Operation) : (lower op).resultNames = op.resultNames := by
  have hhead : (lower op).toHead = stands op.toHead := by
    rw [lower_eq, stands]
    cases lowered? op.toHead with
    | some new => rfl
    | none => exact toHead_lowerNested op
  rw [Head.resultNames, Head.resultNames, hhead, stands_results]

mutual

/-- Lowering keeps the rules of scoping. -/
theorem scoped_lower {visible : List String} :
    {op : Operation} → op.Scoped visible → (lower op).Scoped visible
  | ⟨head, none⟩, h => fun operand hoperand => h operand (stands_operands head hoperand)
  | ⟨head, some ops⟩, h => by
      have hoperands := stands_operands head
      rw [lower]
      unfold stands at hoperands
      cases hnew : lowered? head with
      | some new =>
          rw [hnew] at hoperands
          exact fun operand hoperand => h.1 operand (hoperands hoperand)
      | none => exact ⟨h.1, scopedAll_lower h.2⟩

theorem scopedAll_lower {visible : List String} :
    {ops : List Operation} → ScopedAll visible ops → ScopedAll visible (lowerAll ops)
  | [], _ => trivial
  | op :: ops, h => by
      refine ⟨scoped_lower h.1, ?_⟩
      rw [resultNames_lower]
      exact scopedAll_lower h.2

end

/-- **Lowering leaves a presentable module so.** -/
theorem presentable_lowerNested (h : Presentable context root)
    (haccepts : ∀ name ∈ names, context.Accepts name) : Presentable context (lowerNested root) := by
  have hroot : stands root.toHead = root.toHead := by
    unfold stands lowered?
    rw [h.name]
    rfl
  refine h.of_sublist (f := stands) ?_ ?_ ?_ stands_results stands_operands (fun head hhead => ?_)
    fun head => ?_
  · rw [toHead_lowerNested]
  · obtain ⟨hoperands, hnested⟩ := scoped_iff.1 (verify_eq_ok_iff.1 h.verify).1
    refine scoped_iff.2 ⟨?_, ?_⟩
    · rw [toHead_lowerNested]
      exact hoperands
    · rw [nested_lowerNested]
      exact scopedAll_lower hnested
  · rw [heads_eq, heads_eq root, toHead_lowerNested, nested_lowerNested, List.map_cons, hroot]
    exact (headsOfAll_lowerAll root.nested).cons_cons root.toHead
  · obtain ⟨hlegible, haccepted⟩ := h.heads head hhead
    unfold stands
    cases hnew : lowered? head with
    | some new =>
        obtain ⟨hname, -, hresults, hattributes⟩ := lowered?_cases hnew
        have hbare : ∀ name ∈ names, Text.IsBare name.text ∧ name.text ≠ "module" := by
          decide +kernel
        exact ⟨⟨hbare new.name hname, hresults ▸ hlegible.results,
          hattributes ▸ hlegible.attributes⟩, haccepts new.name hname⟩
    | none => exact ⟨hlegible, haccepted⟩
  · unfold stands
    cases hnew : lowered? head with
    | some new =>
        have hnone : ∀ name ∈ names, binaryWeight name = 0 := by decide
        rw [Option.getD_some, hnone new.name (lowered?_cases hnew).1]
        exact Nat.zero_le _
    | none => exact Nat.le_refl _

end Lowering

end DialectIR
