import DialectIR.Proofs.Accepted
import DialectIR.Proofs.ReadBack

/-! The reader undoes the printer. -/

namespace DialectIR.Layout

open Token

theorem mem_head?_append {k : Kind} {kinds more : List Kind} (h : k ∈ (kinds ++ more).head?) :
    k ∈ kinds.head? ∨ k ∈ more.head? := by
  cases kinds with
  | nil => exact .inr h
  | cons kind kinds => exact .inl h

theorem head?_kinds_operandItems (values : List Value) {k : Kind}
    (h : k ∈ (kinds (operandItems values)).head?) : k = .value := by
  rw [operandItems] at h
  rcases values with _ | ⟨value, _ | ⟨other, values⟩⟩
  · cases h
  · cases h
    rfl
  · rw [if_neg (by simp), listItems_cons_cons] at h
    cases h
    rfl

theorem head?_kinds_attributesItems (attributes : Attributes) {k : Kind}
    (h : k ∈ (kinds (attributesItems attributes)).head?) : k = .lbrace := by
  unfold attributesItems at h
  split at h
  · cases h
  · cases h
    rfl

theorem head?_kinds_typeItems (results : List Value) {k : Kind}
    (h : k ∈ (kinds (typeItems results)).head?) : k = .colon := by
  unfold typeItems at h
  split at h
  · cases h
  · cases h
    rfl

theorem head?_kinds_regionItems (depth : Nat) (region : Option (List Operation)) {k : Kind}
    (h : k ∈ (kinds (regionItems depth region)).head?) : k = .lbrace := by
  rcases region with _ | _ | ⟨op, ops⟩
  · cases h
  · cases h
    rfl
  · cases h
    rfl

/-- The text behind the name of an operation goes on with its parts, or with what follows it. -/
theorem head?_behindName {head : Head} {depth : Nat} {region : Option (List Operation)}
    {more : List Kind} {k : Kind}
    (h : k ∈ (kinds (operandItems head.operands) ++ (kinds (attributesItems head.attributes)
      ++ (kinds (typeItems head.results) ++ (kinds (regionItems depth region) ++ more)))).head?) :
    k = .value ∨ k = .lbrace ∨ k = .colon ∨ k ∈ more.head? := by
  rcases mem_head?_append h with h | h
  · exact .inl (head?_kinds_operandItems _ h)
  rcases mem_head?_append h with h | h
  · exact .inr (.inl (head?_kinds_attributesItems _ h))
  rcases mem_head?_append h with h | h
  · exact .inr (.inr (.inl (head?_kinds_typeItems _ h)))
  rcases mem_head?_append h with h | h
  · exact .inr (.inl (head?_kinds_regionItems _ _ h))
  · exact .inr (.inr (.inr h))

theorem kinds_indentItems (depth : Nat) : kinds (indentItems depth) = [] := by
  rw [indentItems]
  generalize 2 * depth = n
  induction n with
  | zero => rfl
  | succ n ih => exact ih

/-- An operation begins with a result or with its name. -/
theorem kinds_opItems_cons (depth : Nat) (op : Operation) :
    ∃ k more, kinds (opItems depth op) = k :: more ∧ (k = .value ∨ k = .bare) := by
  rw [opItems_eq, headItems]
  rcases hresults : op.results with _ | ⟨value, _ | ⟨other, values⟩⟩
  · exact ⟨.bare, _, rfl, .inr rfl⟩
  · exact ⟨.value, _, rfl, .inl rfl⟩
  · rw [resultItems, if_neg (by simp), listItems_cons_cons]
    exact ⟨.value, _, rfl, .inl rfl⟩

theorem length_le_kinds_listItems {α : Type} {items : α → List Item} {list : List α}
    (hitems : ∀ a ∈ list, 1 ≤ (kinds (items a)).length) :
    list.length ≤ (kinds (listItems items list)).length := by
  induction list with
  | nil => exact Nat.zero_le _
  | cons a list ih =>
      have hfirst := hitems a List.mem_cons_self
      cases list with
      | nil => exact hfirst
      | cons b list =>
          have hrest := ih fun c hc => hitems c (List.mem_cons_of_mem _ hc)
          rw [listItems_cons_cons, kinds_append, List.length_append]
          simp only [List.length_cons, kinds, space] at hrest ⊢
          omega

/-- There are more words in an operation than results, operands or attributes. -/
theorem length_le_kinds_headItems (head : Head) :
    head.results.length < (kinds (headItems head)).length
      ∧ head.operands.length < (kinds (headItems head)).length
      ∧ head.attributes.entries.length < (kinds (headItems head)).length := by
  have hresults : head.results.length ≤ (kinds (resultItems head.results)).length := by
    unfold resultItems
    split
    next h => simp [List.isEmpty_iff.1 h]
    next =>
      rw [kinds_append, List.length_append]
      exact Nat.le_add_right_of_le (length_le_kinds_listItems fun _ _ => Nat.le_refl 1)
  have hoperands : head.operands.length ≤ (kinds (operandItems head.operands)).length := by
    unfold operandItems
    split
    next h => simp [List.isEmpty_iff.1 h]
    next => exact length_le_kinds_listItems fun _ _ => Nat.le_refl 1
  have hattributes : head.attributes.entries.length
    ≤ (kinds (attributesItems head.attributes)).length := by
    unfold attributesItems
    split
    next h => simp [List.isEmpty_iff.1 h]
    next =>
      have hentries : head.attributes.entries.length
          ≤ (kinds (listItems entryItems head.attributes.entries)).length :=
        length_le_kinds_listItems fun entry _ => by simp [entryItems, kinds]
      simp only [dictItems, space, kinds, kinds_append, List.length_cons, List.length_append]
      omega
  simp only [headItems, kinds_append, kinds, List.length_append, List.length_cons]
  omega

end DialectIR.Layout

namespace DialectIR.Parse

open Layout Token Operation

/-- The first token is of one of some classes; a value stands behind the given line. -/
def Behind (classes : List Kind) (line : Nat) (rest : List Token) : Prop :=
  ∃ token later, rest = token :: later ∧ token.kind ∈ classes
    ∧ (token.kind = .value → line < token.location.line)

/-- What may follow an operation: the next one, the end of the region, or the end of the text. -/
def endClasses : List Kind := [.value, .bare, .rbrace, .eof]

namespace Behind

variable {classes : List Kind} {line : Nat} {rest : List Token}

theorem ne_nil (h : Behind classes line rest) : rest ≠ [] := by
  obtain ⟨token, later, rfl, -⟩ := h
  exact List.cons_ne_nil _ _

theorem mem_of_head? (h : Behind classes line rest) {k : Kind}
    (hk : k ∈ (rest.map Token.kind).head?) :
    k ∈ classes := by
  obtain ⟨token, later, rfl, hkind, -⟩ := h
  cases hk
  exact hkind

theorem firstKind_mem (h : Behind classes line rest) : firstKind rest ∈ classes := by
  obtain ⟨token, later, rfl, hkind, -⟩ := h
  exact hkind

theorem firstKind_ne (h : Behind classes line rest) {kind : Kind} (hkind : kind ∉ classes) :
    firstKind rest ≠ kind :=
  fun heq => hkind (heq ▸ h.firstKind_mem)

theorem mono {line' : Nat} (h : Behind classes line rest) (hle : line' ≤ line) :
    Behind classes line' rest := by
  obtain ⟨token, later, rfl, hkind, hline⟩ := h
  exact ⟨token, later, rfl, hkind, fun hvalue => Nat.lt_of_le_of_lt hle (hline hvalue)⟩

theorem line_ne (h : Behind classes line rest) :
    ∀ token ∈ rest.head?, token.kind = .value → token.location.line ≠ line := by
  obtain ⟨token, later, rfl, -, hline⟩ := h
  rintro _ ⟨⟩ hvalue
  exact Nat.ne_of_gt (hline hvalue)

/-- Text that begins with a word of another class, if it has words at all. -/
theorem prepend (h : Behind classes line rest) {items : List Item} {k : Kind}
    (hitems : ∀ k' ∈ (kinds items).head?, k' = k) (hk : k ≠ .value) (location : Location) :
    Behind (k :: classes) line (tokensFrom location items ++ rest) := by
  have hkinds := map_kind_tokensFrom location items
  rcases htokens : tokensFrom location items with _ | ⟨token, later⟩
  · obtain ⟨token, later, rfl, hkind, hline⟩ := h
    exact ⟨token, later, rfl, List.mem_cons_of_mem _ hkind, hline⟩
  · rw [htokens, List.map_cons] at hkinds
    have hkind : token.kind = k := hitems token.kind (by rw [← hkinds]; rfl)
    refine ⟨token, later ++ rest, rfl, hkind ▸ List.mem_cons_self, fun hvalue => ?_⟩
    exact absurd (hkind.symm.trans hvalue) hk

end Behind

theorem head?_of_startsWith {k : Kind} {kinds more : List Kind} (h : k :: kinds <+: more) :
    k ∈ more.head? := by
  obtain ⟨rest, rfl⟩ := h
  rfl

/-- An operation does not begin with a name and an equals sign. -/
theorem not_entry (depth : Nat) (op : Operation) {more : List Kind}
    (hmore : ∀ k ∈ more.head?, k ≠ .equal) :
    ¬ [.bare, .equal] <+: kinds (opItems depth op) ++ more := by
  intro h
  rw [opItems_eq, headItems] at h
  rcases hresults : op.results with _ | ⟨value, _ | ⟨other, values⟩⟩
  · have hitems : resultItems op.results = [] := by
      rw [hresults]
      rfl
    rw [hitems] at h
    simp only [kinds_append, kinds, List.nil_append, List.cons_append, List.append_assoc] at h
    have hequal := head?_of_startsWith (List.cons_prefix_cons.1 h).2
    rcases head?_behindName hequal with heq | heq | heq | hequal
    · cases heq
    · cases heq
    · cases heq
    · exact hmore _ hequal rfl
  · rw [hresults] at h
    cases (List.cons_prefix_cons.1 h).1
  · rw [hresults, resultItems, if_neg (by simp), listItems_cons_cons] at h
    cases (List.cons_prefix_cons.1 h).1

/-- Behind the attributes of an operation nothing looks like a dictionary, as regions begin with an
operation. -/
theorem not_dictionary {line depth : Nat} {rest : List Token}
    (hbehind : Behind endClasses line rest) (results : List Value)
    (region : Option (List Operation)) :
    ¬ [.lbrace, .bare, .equal] <+: kinds (typeItems results) ++ (kinds (regionItems depth region)
      ++ rest.map Token.kind) := by
  intro h
  rcases hresults : kinds (typeItems results) with _ | ⟨k, more⟩
  · rw [hresults, List.nil_append] at h
    rcases region with _ | _ | ⟨op, ops⟩
    · have hmem : Kind.lbrace ∈ endClasses := hbehind.mem_of_head? (head?_of_startsWith h)
      revert hmem
      decide
    · simp [regionItems, kinds, space] at h
    · simp only [regionItems, space, lineItems, kinds_append, kinds_indentItems, kinds,
        List.nil_append, List.cons_append, List.append_assoc] at h
      refine not_entry (depth + 1) op (fun k hk => ?_) (List.cons_prefix_cons.1 h).2
      rcases ops with _ | ⟨next, ops⟩
      · cases hk
        decide
      · obtain ⟨k', more, hkinds, hk'⟩ := kinds_opItems_cons (depth + 1) next
        simp only [lineItems, kinds_append, kinds_indentItems, hkinds, List.nil_append,
          List.cons_append] at hk
        cases hk
        rcases hk' with rfl | rfl <;> decide
  · rw [hresults] at h
    have hcolon : k = .colon := head?_kinds_typeItems results (by rw [hresults]; rfl)
    have hbrace := (List.cons_prefix_cons.1 h).1
    rw [hcolon] at hbrace
    cases hbrace

/-! ### What reading starts from -/

/-- The operations can be read where the given values are visible. -/
structure Ready (context : Context) (known : List Value) (visible : List String)
    (ops : List Operation)
    (s : State) : Prop where
  writable : ∀ head ∈ headsOfAll ops, head.Writable context
  uses : ScopedAll visible ops
  nodup : (definedNamesOfAll ops).Nodup
  new : ∀ name ∈ definedNamesOfAll ops, name ∉ s.defined
  results : (headsOfAll ops).flatMap (·.results) ⊆ known
  typed : ∀ operand ∈ (headsOfAll ops).flatMap (·.operands), ∀ result ∈ known,
    result.name = operand.name → result.ty = operand.ty
  sees : Sees s.scopes visible known
  inner : s.scopes ≠ []
  dialects : context.SameDialects s.context

namespace Ready

variable {context : Context} {known : List Value} {visible : List String} {s s' : State}
  {op : Operation} {ops : List Operation}

theorem head (h : Ready context known visible (op :: ops) s) :
    Ready context known visible [op] s where
  writable head hhead :=
    h.writable head (by simpa [headsOfAll] using .inl (by simpa [headsOfAll] using hhead))
  uses := ⟨h.uses.1, trivial⟩
  nodup := by
    have hnodup := h.nodup
    rw [definedNamesOfAll_cons] at hnodup
    simpa using (List.nodup_append.1 hnodup).1
  new name hname := h.new name (by
    rw [definedNamesOfAll_cons]
    exact List.mem_append_left _ (by simpa using hname))
  results value hvalue := h.results (by
    rw [headsOfAll, List.flatMap_append]
    exact List.mem_append_left _ (by simpa [headsOfAll] using hvalue))
  typed operand hoperand := h.typed operand (by
    rw [headsOfAll, List.flatMap_append]
    exact List.mem_append_left _ (by simpa [headsOfAll] using hoperand))
  sees := h.sees
  inner := h.inner
  dialects := h.dialects

theorem tail (h : Ready context known visible (op :: ops) s)
    (hleaves : Leaves (op.resultNames ++ visible) known op.definedNames s s') :
    Ready context known (op.resultNames ++ visible) ops s' where
  writable head hhead := h.writable head (by
    rw [headsOfAll]
    exact List.mem_append_right _ hhead)
  uses := h.uses.2
  nodup := by
    have hnodup := h.nodup
    rw [definedNamesOfAll_cons] at hnodup
    exact (List.nodup_append.1 hnodup).2.1
  new name hname hdefined := by
    have hnodup := h.nodup
    rw [definedNamesOfAll_cons] at hnodup
    rcases hleaves.defined name hdefined with hfirst | hold
    · exact (List.nodup_append.1 hnodup).2.2 name hfirst name hname rfl
    · refine h.new name ?_ hold
      rw [definedNamesOfAll_cons]
      exact List.mem_append_right _ hname
  results value hvalue := h.results (by
    rw [headsOfAll, List.flatMap_append]
    exact List.mem_append_right _ hvalue)
  typed operand hoperand := h.typed operand (by
    rw [headsOfAll, List.flatMap_append]
    exact List.mem_append_right _ hoperand)
  sees := hleaves.sees
  inner := hleaves.inner
  dialects := h.dialects.trans hleaves.dialects

theorem heads (op : Operation) : headsOfAll [op] = op.toHead :: headsOfAll op.nested := by
  rw [headsOfAll, headsOfAll, List.append_nil, heads_eq]

theorem resultsOf (h : Ready context known visible [op] s) : op.results ⊆ known := by
  intro value hvalue
  apply h.results
  rw [heads, List.flatMap_cons]
  exact List.mem_append_left _ hvalue

theorem typedOf (h : Ready context known visible [op] s) :
    ∀ operand ∈ op.operands, ∀ result ∈ known,
    result.name = operand.name → result.ty = operand.ty := by
  intro operand hoperand
  apply h.typed operand
  rw [heads, List.flatMap_cons]
  exact List.mem_append_left _ hoperand

theorem operandsVisible (h : Ready context known visible [op] s) :
    ∀ operand ∈ op.operands, operand.name ∈ visible :=
  (scoped_iff.1 h.uses.1).1

/-- The operations of a region see what the operation sees that holds them. -/
theorem nested (h : Ready context known visible [op] s) (hscopes : s'.scopes = .empty :: s.scopes)
    (hdefined : s'.defined = s.defined) (hdialects : s.context.SameDialects s'.context) :
    Ready context known visible op.nested s' := by
  refine ⟨fun head hhead => h.writable head ?_, (scoped_iff.1 h.uses.1).2, ?_, fun name hname => ?_,
    fun value hvalue => h.results ?_, fun operand hoperand => h.typed operand ?_, ?_, ?_,
    h.dialects.trans hdialects⟩
  · rw [heads]
    exact List.mem_cons_of_mem _ hhead
  · have hnodup := h.nodup
    rw [definedNamesOfAll_singleton] at hnodup
    exact (List.nodup_append.1 hnodup).2.1
  · rw [hdefined]
    apply h.new name
    rw [definedNamesOfAll_singleton]
    exact List.mem_append_right _ hname
  · rw [heads, List.flatMap_cons]
    exact List.mem_append_right _ hvalue
  · rw [heads, List.flatMap_cons]
    exact List.mem_append_right _ hoperand
  · rw [hscopes]
    exact h.sees
  · rw [hscopes]
    exact List.cons_ne_nil _ _

end Ready

/-! ### Operations -/

section

variable {context : Context} {known : List Value} {visible : List String} {s : State}
  {rest : List Token}

theorem operationName_nameWord {name : OpName} (hname : name.text ≠ "module") :
    operationName (nameWord name) = name := by
  unfold nameWord operationName
  by_cases hmodule : name = "builtin.module"
  · rw [if_pos hmodule, if_pos rfl, hmodule]
  · rw [if_neg hmodule, if_neg hname]

/-- Names have no newlines. -/
theorem ne_newline_of_isBare {text : String} (h : Text.IsBare text) :
    ∀ c ∈ text.toList, c ≠ '\n' := by
  obtain ⟨⟨c, cs, htoList, hstarts, -, -, hcontinues⟩, -⟩ := h
  rw [htoList]
  rintro d hd rfl
  rcases List.mem_cons.1 hd with rfl | hd
  · cases hstarts
  · cases hcontinues _ hd

theorem reads_checkName {head : Head} (hhead : head.Writable context)
    (hdialects : context.SameDialects s.context) (token : Token) :
    Returns (checkName head.name token) (s.reading rest) ()
      (({ s with context := s.context.load head.name.dialect } : State).reading rest) := by
  have hload := Context.sameDialects_load s.context head.name.dialect
  have haccepts := ((hdialects.trans hload).accepts_iff head.name).2 hhead.accepted
  rw [returns_checkName, State.reading_context, nameFault?_eq_none_iff]
  refine ⟨haccepts, ?_⟩
  cases rest <;> rfl

/-- The words of an operation, part by part. Between the name and the operands there is no
newline. -/
theorem exists_tokensFrom_opItems (location : Location) (depth : Nat) {op : Operation}
    (hname : Text.IsBare (nameWord op.name)) :
    ∃ at1 at2 at3 at4 at5, tokensFrom location (opItems depth op)
      = tokensFrom location (resultItems op.results)
        ++ ⟨.bare, nameWord op.name, at1⟩ :: (tokensFrom at2 (operandItems op.operands)
          ++ (tokensFrom at3 (attributesItems op.attributes)
            ++ (tokensFrom at4 (typeItems op.results)
            ++ tokensFrom at5 (regionItems depth op.region))))
      ∧ at2.line = at1.line ∧ at1.line ≤ (location.after (chars (opItems depth op))).line := by
  have hitems : opItems depth op = resultItems op.results ++ .word .bare (nameWord op.name).toList
      :: (operandItems op.operands ++ (attributesItems op.attributes
        ++ (typeItems op.results ++ regionItems depth op.region))) := by
    simp only [opItems_eq, headItems, List.append_assoc, List.cons_append]
  have hsplit : ∀ next items more, ∃ behind, tokensFrom next (items ++ more)
      = tokensFrom next items ++ tokensFrom behind more :=
    fun next items more => ⟨_, tokensFrom_append next items more⟩
  have hline := line_after (ne_newline_of_isBare hname)
    (location.after (chars (resultItems op.results)))
  have hle : (location.after (chars (resultItems op.results))).line
    ≤ (location.after (chars (opItems depth op))).line := by
    rw [hitems, chars_append, after_append]
    exact line_le_after _ _
  rw [hitems, tokensFrom_append, tokensFrom_word, String.ofList_toList]
  obtain ⟨at3, h3⟩ :=
    hsplit ((location.after (chars (resultItems op.results))).after (nameWord op.name).toList)
    (operandItems op.operands) (attributesItems op.attributes
      ++ (typeItems op.results ++ regionItems depth op.region))
  obtain ⟨at4, h4⟩ := hsplit at3 (attributesItems op.attributes)
    (typeItems op.results ++ regionItems depth op.region)
  obtain ⟨at5, h5⟩ := hsplit at4 (typeItems op.results) (regionItems depth op.region)
  rw [h3, h4, h5, ← hitems]
  exact ⟨_, _, at3, at4, at5, rfl, hline, hle⟩

/-- The results of an operation are defined behind its region: nothing within it has their names. -/
theorem reads_results {op : Operation} (hready : Ready context known visible [op] s) {s1 s2 : State}
    (hdefined : s1.defined = s.defined)
    (hleaves : Leaves visible known (definedNamesOfAll op.nested) s1 s2) {tokens : List Token}
    (hlexemes : tokens.map (unmarked ·.lexeme) = op.resultNames) :
    ∃ s' : State, Returns (defineAll (tokens.zip (op.results.map Value.ty))) (s2.reading rest)
      op.results (s'.reading rest)
      ∧ Leaves (op.resultNames ++ visible) known op.resultNames s2 s' := by
  have hhead : op.toHead.Writable context :=
    hready.writable op.toHead (by simp [headsOfAll, heads_eq])
  have hnames := definedNamesOfAll_singleton op
  obtain ⟨hnodup, -, hdisjoint⟩ := List.nodup_append.1 (hnames ▸ hready.nodup)
  have hnew : ∀ result ∈ op.results, result.name ∉ s2.defined := by
    intro result hresult hmem
    have hown : result.name ∈ op.resultNames := List.mem_map_of_mem hresult
    rcases hleaves.defined _ hmem with hinside | hbefore
    · exact hdisjoint _ hown _ hinside rfl
    · rw [hdefined] at hbefore
      exact hready.new _ (hnames ▸ List.mem_append_left _ hown) hbefore
  have hwritable : ∀ result ∈ op.results, Text.IsNamePart result.name :=
    fun result hresult => hhead.values result (List.mem_append_right _ hresult)
  exact reads_defineAll hlexemes hwritable hnodup hnew hready.resultsOf hleaves.sees hleaves.inner

/-- If reading the region succeeds, so does reading the operation that holds it. -/
theorem reads_operation_of_region {op : Operation} {depth steps : Nat} {location : Location}
    (hready : Ready context known visible [op] s)
    (hsteps : (kinds (opItems depth op)).length ≤ steps + 1)
    (hbehind : Behind endClasses (location.after (chars (opItems depth op))).line rest)
    (hregion : ∀ (s1 : State) location', s1.scopes = s.scopes → s1.defined = s.defined →
      s.context.SameDialects s1.context →
      ∃ s2 : State, Returns (region? (operation steps) (steps + 1))
        (s1.reading (tokensFrom location' (regionItems depth op.region) ++ rest)) op.region
          (s2.reading rest)
          ∧ Leaves visible known (definedNamesOfAll op.nested) s1 s2) :
    ∃ s' : State, Returns (operation (steps + 1))
      (s.reading (tokensFrom location (opItems depth op) ++ rest)) op
        (s'.reading rest) ∧ Leaves (op.resultNames ++ visible) known op.definedNames s s' := by
  have hhead : op.toHead.Writable context :=
    hready.writable op.toHead (by simp [headsOfAll, heads_eq])
  obtain ⟨hresultSteps, hoperandSteps, hattributeSteps⟩ := length_le_kinds_headItems op.toHead
  have hkinds : (kinds (headItems op.toHead)).length ≤ steps + 1 := by
    rw [opItems_eq, kinds_append, List.length_append] at hsteps
    omega
  obtain ⟨at1, at2, at3, at4, at5, htokens, hline, hle⟩ := exists_tokensFrom_opItems location depth
    (isBare_nameWord hhead)
  rw [htokens]
  simp only [List.append_assoc, List.cons_append]
  -- what stands behind the types, the attributes and the operands
  have hbehind5 := (hbehind.mono hle).prepend (fun _ => head?_kinds_regionItems depth op.region)
    (by decide) at5
  have hbehind4 := hbehind5.prepend (fun _ => head?_kinds_typeItems op.results) (by decide) at4
  have hbehind3 := hbehind4.prepend (fun _ => head?_kinds_attributesItems op.attributes)
    (by decide) at3
  obtain ⟨tokens, hresults, hlexemes⟩ := @reads_resultTokens s (⟨.bare, nameWord op.name, at1⟩
    :: (tokensFrom at2 (operandItems op.operands) ++ (tokensFrom at3 (attributesItems op.attributes)
      ++ (tokensFrom at4 (typeItems op.results)
        ++ (tokensFrom at5 (regionItems depth op.region) ++ rest)))))
    op.results (steps + 1) (hresultSteps.le.trans hkinds) location (List.cons_ne_nil _ _) rfl
  have hload := Context.sameDialects_load s.context op.name.dialect
  have hsees : Sees ({ s with context := s.context.load op.name.dialect } : State).scopes
    visible known :=
    hready.sees
  obtain ⟨s2, hread, hleaves⟩ := hregion { s with context := s.context.load op.name.dialect }
    at5 rfl rfl hload
  have hsame : ({ s with context := s.context.load op.name.dialect } : State).defined
    = s.defined := rfl
  obtain ⟨s', hdefine, hleaves'⟩ := @reads_results context known visible s rest op hready _ s2 hsame
    hleaves tokens hlexemes
  have hlength : tokens.length = op.results.length := by
    have hmap := congrArg List.length hlexemes
    rwa [List.length_map, List.length_map] at hmap
  have htypes : (op.results.map Value.ty).length = tokens.length := by
    rw [List.length_map, hlength]
  refine ⟨s', ?_, ?_⟩
  · rw [operation]
    refine Returns.bind_iff.2 ⟨_, _, hresults, ?_⟩
    refine Returns.bind_iff.2 ⟨_, _, reads_expect rfl (by decide) (by simp [hbehind.ne_nil]), ?_⟩
    rw [operationName_nameWord hhead.name.2]
    refine Returns.bind_iff.2 ⟨_, _, reads_checkName hhead hready.dialects _, ?_⟩
    refine Returns.bind_iff.2
      ⟨op.operands, _, reads_operands hsees hready.operandsVisible hready.typedOf
      (fun value hvalue => hhead.values value (List.mem_append_left _ hvalue))
        (hoperandSteps.le.trans hkinds) hline
      hbehind3.ne_nil (hbehind3.firstKind_ne (by decide)) (fun _ => hbehind3.line_ne), ?_⟩
    refine Returns.bind_iff.2
      ⟨op.attributes, _, reads_attributes? hhead.attributes (hattributeSteps.le.trans hkinds) at3
      hbehind4.ne_nil ?_, ?_⟩
    · simpa using not_dictionary hbehind op.results op.region
    refine Returns.bind_iff.2
      ⟨_, _, reads_resultTypes hhead.types (hresultSteps.le.trans hkinds) at4 hbehind5.ne_nil
      (hbehind5.firstKind_ne (by decide)) (hbehind5.firstKind_ne (by decide)), ?_⟩
    refine Returns.bind_iff.2 ⟨(), _, returns_checkCount.2 ⟨htypes, rfl⟩, ?_⟩
    refine Returns.bind_iff.2 ⟨_, _, hread, ?_⟩
    refine Returns.bind_iff.2 ⟨_, _, hdefine, Returns.pure_iff.2 ⟨?_, rfl⟩⟩
    obtain ⟨⟨name, operands, results, entries⟩, region⟩ := op
    rfl
  · refine ⟨hleaves'.sees, hleaves'.inner, hleaves'.tail.trans hleaves.tail, fun name hname => ?_,
      hload.trans (hleaves.dialects.trans hleaves'.dialects)⟩
    rw [definedNames_eq]
    rcases hleaves'.defined name hname with hname | hname
    · exact .inl (List.mem_append_left _ hname)
    · exact (hleaves.defined name hname).imp_left (List.mem_append_right _)

/-- A region is read if its operations are; what they define is not visible behind it. -/
theorem reads_region {operation : Reader Operation} {ops : List Operation} {fuel : Nat} {s2 : State}
    {brace close : Token} {body : List Token} {names : List String} (hbrace : brace.kind = .lbrace)
    (hclose : close.kind = .rbrace) (hrest : rest ≠ []) (hsees : Sees s.scopes visible known)
    (hinner : s.scopes ≠ []) (hops : Returns (operationsUntil .rbrace operation fuel)
      (({ s with scopes := .empty :: s.scopes } : State).reading (body ++ close :: rest)) ops
      (s2.reading (close :: rest)))
    (hleaves : Leaves (visibleAfter visible ops) known names { s with scopes := .empty :: s.scopes } s2) :
    ∃ s' : State, Returns (region? operation fuel)
      (s.reading (brace :: (body ++ close :: rest))) (some ops)
      (s'.reading rest) ∧ Leaves visible known names s s' := by
  have hscopes : s2.scopes.tail = s.scopes := hleaves.tail
  refine ⟨{ s2 with scopes := s2.scopes.tail }, ?_, ?_⟩
  · have hnext : (s.reading (brace :: (body ++ close :: rest))).here.kind = .lbrace := hbrace
    have henter : ({ s.reading (body ++ close :: rest) with
      scopes := .empty :: (s.reading (body ++ close :: rest)).scopes } : State)
        = ({ s with scopes := .empty :: s.scopes } : State).reading (body ++ close :: rest) := by
      cases body <;> rfl
    have hleave : ({ s2.reading rest with scopes := (s2.reading rest).scopes.tail } : State)
        = ({ s2 with scopes := s2.scopes.tail } : State).reading rest := by
      cases rest <;> rfl
    unfold region? region
    rw [returns_isNext_bind, hnext]
    refine Returns.map_iff.2 ⟨ops, ?_, rfl⟩
    refine Returns.bind_iff.2 ⟨_, _, reads_expect hbrace (by decide) (by simp), ?_⟩
    rw [Returns.modify_bind_iff, henter]
    refine Returns.bind_iff.2 ⟨_, _, hops, ?_⟩
    refine Returns.bind_iff.2 ⟨_, _, reads_expect hclose (by decide) hrest, ?_⟩
    rw [Returns.modify_bind_iff, hleave]
    exact Returns.pure_iff.2 ⟨rfl, rfl⟩
  · refine ⟨?_, ?_, ?_, hleaves.defined, hleaves.dialects⟩
    · rw [hscopes]
      exact hsees
    · rw [hscopes]
      exact hinner
    · rw [hscopes]

/-- The words of a region: its braces around the words of its lines. -/
theorem exists_tokensFrom_regionItems (location : Location) (depth : Nat) (ops : List Operation) :
    ∃ brace close next, brace.kind = .lbrace ∧ close.kind = .rbrace
      ∧ tokensFrom location (regionItems depth (some ops))
        = brace :: (tokensFrom next (lineItems (depth + 1) ops) ++ [close]) := by
  cases ops with
  | nil => exact ⟨_, _, location, rfl, rfl, rfl⟩
  | cons op ops =>
      have hindent : ∀ next, ∃ close, close.kind = .rbrace
          ∧ tokensFrom next (indentItems depth ++ [.word .rbrace ['\x7d']]) = [close] := by
        intro next
        have hkinds := map_kind_tokensFrom next (indentItems depth)
        rw [kinds_indentItems, List.map_eq_nil_iff] at hkinds
        rw [tokensFrom_append, hkinds]
        exact ⟨_, rfl, rfl⟩
      obtain ⟨close, hclose, htokens⟩ :=
        hindent ((((location.next ' ').after ['\x7b']).next '\n').after
        (chars (lineItems (depth + 1) (op :: ops))))
      rw [regionItems, space, tokensFrom_blank, tokensFrom_word, tokensFrom_blank,
        tokensFrom_append, htokens]
      exact ⟨_, close, _, rfl, hclose, rfl⟩

theorem kinds_regionItems_length (depth : Nat) (ops : List Operation) :
    (kinds (regionItems depth (some ops))).length
      = (kinds (lineItems (depth + 1) ops)).length + 2 := by
  cases ops with
  | nil => rfl
  | cons op ops => simp [regionItems, space, kinds, kinds_indentItems]

/-- A line below the given one, or the end of the region, comes next. -/
theorem behind_lines {line : Nat} {next : Location} (depth : Nat) (ops : List Operation)
    (hline : line < next.line) (hclose : firstKind rest = .rbrace) :
    Behind endClasses line (tokensFrom next (lineItems depth ops) ++ rest) := by
  cases ops with
  | nil =>
      cases rest with
      | nil => cases hclose
      | cons token later =>
          have hkind : token.kind = .rbrace := hclose
          exact ⟨token, later, rfl, by rw [hkind]; decide, fun hvalue => by
            rw [hkind] at hvalue; cases hvalue⟩
  | cons op ops =>
      obtain ⟨k, more, hkinds, hk⟩ := kinds_opItems_cons depth op
      have hall := map_kind_tokensFrom next (lineItems depth (op :: ops))
      rw [lineItems, kinds_append, kinds_indentItems, kinds_append, hkinds] at hall
      rcases htokens : tokensFrom next (lineItems depth (op :: ops)) with _ | ⟨token, later⟩
      · rw [lineItems] at htokens
        rw [htokens] at hall
        cases hall
      · have hmem : token ∈ tokensFrom next (lineItems depth (op :: ops)) :=
          htokens ▸ List.mem_cons_self
        rw [lineItems] at htokens
        rw [htokens] at hall
        have hkind : token.kind = k := (List.cons.inj hall).1
        refine ⟨token, later ++ rest, rfl, ?_, fun _ =>
          Nat.lt_of_lt_of_le hline (line_le_of_mem_tokensFrom hmem)⟩
        rw [hkind]
        rcases hk with rfl | rfl <;> decide

mutual

/-- **An operation is read back** wherever it is ready to be read, with enough steps. -/
theorem reads_operation (depth : Nat) :
    (op : Operation) → ∀ {visible : List String} {s : State} {steps : Nat}
    (location : Location) {rest : List Token}, Ready context known visible [op] s →
    (kinds (opItems depth op)).length ≤ steps →
    Behind endClasses (location.after (chars (opItems depth op))).line rest →
    ∃ s' : State, Returns (operation steps)
      (s.reading (tokensFrom location (opItems depth op) ++ rest)) op
      (s'.reading rest) ∧ Leaves (op.resultNames ++ visible) known op.definedNames s s'
  | ⟨head, none⟩, visible, s, steps, location, rest, hready, hsteps, hbehind => by
      obtain ⟨k, more, hkinds, -⟩ := kinds_opItems_cons depth ⟨head, none⟩
      obtain ⟨steps, rfl⟩ : ∃ n, steps = n + 1 := Nat.exists_eq_add_one.2 (by
        rw [hkinds, List.length_cons] at hsteps
        omega)
      apply reads_operation_of_region hready hsteps hbehind
      intro s1 location' hscopes hdefined hdialects
      have hnext : (s1.reading rest).here.kind ≠ .lbrace := by
        rw [State.kind_reading s1 hbehind.ne_nil]
        exact hbehind.firstKind_ne (by decide)
      refine ⟨s1, ?_, .refl (hscopes ▸ hready.sees) (hscopes ▸ hready.inner)⟩
      unfold region?
      rw [returns_isNext_bind, regionItems, tokensFrom_nil, List.nil_append,
        if_neg (by simpa using hnext)]
      exact Returns.pure_iff.2 ⟨rfl, rfl⟩
  | ⟨head, some ops⟩, visible, s, steps, location, rest, hready, hsteps, hbehind => by
      have hlength : (kinds (opItems depth ⟨head, some ops⟩)).length
          = (kinds (headItems head)).length + ((kinds (lineItems (depth + 1) ops)).length + 2) := by
        rw [opItems_eq, kinds_append, List.length_append, kinds_regionItems_length]
      obtain ⟨steps, rfl⟩ : ∃ n, steps = n + 1 := Nat.exists_eq_add_one.2 (by omega)
      apply reads_operation_of_region hready hsteps hbehind
      intro s1 location' hscopes hdefined hdialects
      obtain ⟨brace, close, next, hbrace, hclose, htokens⟩ :=
        exists_tokensFrom_regionItems location' depth ops
      have hnested : Ready context known visible ops { s1 with scopes := .empty :: s1.scopes } :=
        hready.nested (by rw [hscopes]) hdefined hdialects
      have hlines : (kinds (lineItems (depth + 1) ops)).length ≤ steps := by omega
      have hend : firstKind (close :: rest) = .rbrace := hclose
      obtain ⟨s2, hops, hleaves⟩ := reads_operations (depth + 1) ops next hnested hlines
        (Nat.lt_succ_of_le hlines) hend
      rw [htokens, List.cons_append, List.append_assoc, List.singleton_append]
      exact reads_region hbrace hclose hbehind.ne_nil (hscopes ▸ hready.sees)
        (hscopes ▸ hready.inner) hops hleaves

/-- The operations of a region are read back up to the closing brace. -/
theorem reads_operations (depth : Nat) :
    (ops : List Operation) → ∀ {visible : List String} {s : State}
    {fuel steps : Nat} (location : Location) {rest : List Token},
      Ready context known visible ops s →
    (kinds (lineItems depth ops)).length ≤ steps → (kinds (lineItems depth ops)).length < fuel →
    firstKind rest = .rbrace →
    ∃ s' : State, Returns (operationsUntil .rbrace (operation steps) fuel)
      (s.reading (tokensFrom location (lineItems depth ops) ++ rest)) ops (s'.reading rest)
        ∧ Leaves (visibleAfter visible ops) known (definedNamesOfAll ops) s s'
  | [], visible, s, fuel, steps, location, rest, hready, hsteps, hfuel, hclose => by
      obtain ⟨fuel, rfl⟩ : ∃ n, fuel = n + 1 := Nat.exists_eq_add_one.2 (by omega)
      have hrest : rest ≠ [] := by
        rintro rfl
        cases hclose
      refine ⟨s, ?_, .refl hready.sees hready.inner⟩
      rw [operationsUntil, returns_isNext_bind, lineItems, tokensFrom_nil, List.nil_append,
        State.kind_reading s hrest, hclose]
      exact Returns.pure_iff.2 ⟨rfl, rfl⟩
  | op :: ops, visible, s, fuel, steps, location, rest, hready, hsteps, hfuel, hclose => by
      obtain ⟨fuel, rfl⟩ : ∃ n, fuel = n + 1 := Nat.exists_eq_add_one.2 (by omega)
      obtain ⟨k, more, hkinds, hk⟩ := kinds_opItems_cons depth op
      have hlength : (kinds (lineItems depth (op :: ops))).length
          = (kinds (opItems depth op)).length + (kinds (lineItems depth ops)).length := by
        rw [lineItems, kinds_append, kinds_indentItems, kinds_append]
        simp [kinds]
      have hpos : 0 < (kinds (opItems depth op)).length := by
        rw [hkinds]
        exact Nat.succ_pos _
      have htokens : ∃ at1 at2, tokensFrom location (lineItems depth (op :: ops))
          = tokensFrom at1 (opItems depth op) ++ tokensFrom at2 (lineItems depth ops)
            ∧ (at1.after (chars (opItems depth op))).line < at2.line := by
        have hindent := map_kind_tokensFrom location (indentItems depth)
        rw [kinds_indentItems, List.map_eq_nil_iff] at hindent
        rw [lineItems, tokensFrom_append, hindent, List.nil_append, tokensFrom_append,
          tokensFrom_blank]
        exact ⟨_, _, rfl, Nat.lt_succ_self _⟩
      obtain ⟨at1, at2, htokens, hline⟩ := htokens
      have hstepsFirst : (kinds (opItems depth op)).length ≤ steps := by omega
      have hstepsRest : (kinds (lineItems depth ops)).length ≤ steps := by omega
      have hfuelRest : (kinds (lineItems depth ops)).length < fuel := by omega
      obtain ⟨s1, hop, hleaves⟩ := reads_operation depth op at1 hready.head hstepsFirst
        (behind_lines depth ops hline hclose)
      obtain ⟨s', hops, hleaves'⟩ := reads_operations depth ops at2 (hready.tail hleaves) hstepsRest
        hfuelRest hclose
      have hfirst : firstKind (tokensFrom at1 (opItems depth op)
        ++ (tokensFrom at2 (lineItems depth ops) ++ rest)) = k := by
        rw [firstKind_eq_head?, List.map_append, map_kind_tokensFrom, hkinds]
        rfl
      have hne : tokensFrom at1 (opItems depth op)
        ++ (tokensFrom at2 (lineItems depth ops) ++ rest) ≠ [] := by
        intro hnil
        rw [hnil] at hfirst
        rcases hk with rfl | rfl <;> cases hfirst
      refine ⟨s', ?_, ?_⟩
      · rw [htokens, List.append_assoc, operationsUntil, returns_isNext_bind,
          State.kind_reading s hne, hfirst, if_neg (by rcases hk with rfl | rfl <;> decide)]
        refine Returns.bind_iff.2 ⟨_, _, hop, ?_⟩
        exact Returns.bind_iff.2 ⟨_, _, hops, Returns.pure_iff.2 ⟨rfl, rfl⟩⟩
      · rw [definedNamesOfAll_cons]
        exact hleaves.trans hleaves'

end

/-- The operations of a text are read back that consists of one printed operation. -/
theorem topLevel_printed {m : Operation} {eof : Token} (heof : eof.kind = .eof)
    (location : Location) (hverify : m.verify = .ok ()) (htyped : m.WellTyped)
    (hwritable : ∀ head ∈ m.heads, head.Writable context) :
    (topLevel (tokensFrom location (opItems 0 m) ++ [eof]) context).1 = .ok [m] := by
  obtain ⟨hscoped, hnodup⟩ := verify_eq_ok_iff.1 hverify
  obtain ⟨k, more, hkinds, hk⟩ := kinds_opItems_cons 0 m
  have hall := map_kind_tokensFrom location (opItems 0 m)
  have hlength : (tokensFrom location (opItems 0 m) ++ [eof]).length
    = (kinds (opItems 0 m)).length + 1 := by
    rw [List.length_append, ← hall, List.length_map, List.length_singleton]
  rcases htokens : tokensFrom location (opItems 0 m) with _ | ⟨here, later⟩
  · rw [htokens, hkinds] at hall
    cases hall
  · have hready : Ready context m.allResults [] [m] { here, later := later ++ [eof], context } := by
      refine ⟨fun head hhead => hwritable head ?_, ⟨hscoped, trivial⟩, by simpa using hnodup,
        fun _ _ => List.not_mem_nil, ?_, fun operand hoperand => htyped operand ?_,
        fun _ h => absurd h List.not_mem_nil, by simp, .refl context⟩
      · simpa [headsOfAll] using hhead
      · simp [headsOfAll, allResults]
      · simpa [headsOfAll, allOperands] using hoperand
    have hbehind : Behind endClasses (location.after (chars (opItems 0 m))).line [eof] :=
      ⟨eof, [], rfl, by rw [heof]; decide, fun hvalue => by rw [heof] at hvalue; cases hvalue⟩
    obtain ⟨s', hop, -⟩ := reads_operation 0 m location hready (Nat.le_succ _) hbehind
    rw [htokens] at hop
    have hhere : here.kind ≠ .eof := by
      rw [htokens, hkinds] at hall
      rw [(List.cons.inj hall).1]
      rcases hk with rfl | rfl <;> decide
    have hreturns : Returns (operationsUntil .eof (operation ((kinds (opItems 0 m)).length + 1))
        ((kinds (opItems 0 m)).length + 1)) { here, later := later ++ [eof], context } [m]
          (s'.reading [eof]) := by
      rw [operationsUntil, returns_isNext_bind, if_neg (by simpa using hhere)]
      refine Returns.bind_iff.2 ⟨_, _, hop, ?_⟩
      refine Returns.bind_iff.2 ⟨[], _, ?_, Returns.pure_iff.2 ⟨rfl, rfl⟩⟩
      rw [hkinds, List.length_cons, operationsUntil, returns_isNext_bind,
        State.kind_reading s' hbehind.ne_nil, if_pos (by simp [firstKind, heof])]
      exact Returns.pure_iff.2 ⟨rfl, rfl⟩
    rw [htokens] at hlength
    rw [List.cons_append] at hlength ⊢
    simp only [topLevel, hlength]
    exact congrArg Prod.fst hreturns

end

end DialectIR.Parse

namespace DialectIR

open Token Layout in
/-- **The reader undoes the printer.** A module that keeps the rules of scoping, whose operands have
the types of their definitions and whose names, types and attributes can be written is read back
from its text as it was. -/
theorem parse_text {context : Context} {m : Operation} (hmodule : m.name = "builtin.module")
    (hverify : m.verify = .ok ()) (htyped : m.WellTyped)
    (hwritable : ∀ head ∈ m.heads, head.Writable context) :
    (parse m.text context).1 = .ok m := by
  have htop := @Parse.topLevel_printed context m ⟨.eof, "", Location.start.after m.text.toList⟩
    rfl .start hverify htyped hwritable
  have hself : Parse.asModule [m] = m := by
    rw [Parse.asModule, if_pos hmodule]
  rw [parse, scan_text hwritable]
  simp only [Parse.module, htop]
  show Except.ok (Parse.asModule [m]) = Except.ok m
  rw [hself]

/-- A function with a body, a negative integer and an empty region. -/
theorem parse_text_function :
    ∃ m : Operation, m.heads.length = 6 ∧ (parse m.text (.ofRegistry .standard)).1 = .ok m :=
  let a : Value := ⟨"a", .int 8⟩
  let b : Value := ⟨"b", .int 8⟩
  let f : Value := ⟨"", .foreign "fn.ref"⟩
  let m := Operation.module
    [.constant a 200,
      { name := "func.func", results := [f],
        attributes := Dict.ofList [("at", .symbol "$f"), ("doc", .string "a, b")],
        region := some [{ name := "arith.addi", operands := [a, a], results := [b] },
          { name := "func.return", region := some [] }] },
      { name := "func.return", operands := [f] }]
  ⟨m, by decide +kernel, parse_text rfl rfl (by decide +kernel) (by decide +kernel)⟩

end DialectIR
