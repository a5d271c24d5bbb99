import DialectIR.Proofs.Arity
import DialectIR.Proofs.Literals
import DialectIR.Proofs.PostOrder
import DialectIR.Proofs.SupplyHistory
import Mathlib.Data.List.Forall2

/-! Products with one. Canonicalization takes them away, and their uses go over to the other factor.
What it looks at is how one is stored: as `1` in all types but that of one bit, where it is stored
as `-1`. -/

namespace DialectIR

open Operation Greedy Arith

variable {σ : Type}

section

variable {α β : Type} {R S : α → β → Prop} {as as' : List α} {bs bs' : List β}

theorem sublistForall₂_append (h : List.SublistForall₂ R as bs)
    (h' : List.SublistForall₂ R as' bs') :
    List.SublistForall₂ R (as ++ as') (bs ++ bs') := by
  obtain ⟨part, hpart, hsub⟩ := List.sublistForall₂_iff.1 h
  obtain ⟨part', hpart', hsub'⟩ := List.sublistForall₂_iff.1 h'
  exact List.sublistForall₂_iff.2 ⟨part ++ part', List.rel_append hpart hpart', hsub.append hsub'⟩

theorem sublistForall₂_imp (himp : ∀ a ∈ as, ∀ b, R a b → S a b) (h : List.SublistForall₂ R as bs) :
    List.SublistForall₂ S as bs := by
  obtain ⟨part, hpart, hsub⟩ := List.sublistForall₂_iff.1 h
  have hboth := (List.forall₂_and_left _ _).2 ⟨fun a ha => ha, hpart⟩
  exact List.sublistForall₂_iff.2 ⟨part, hboth.imp fun a b hab => himp a hab.1 b hab.2, hsub⟩

theorem sublistForall₂_of_sublist (hsub : as'.Sublist as) (h : List.SublistForall₂ R as bs) :
    List.SublistForall₂ R as' bs := by
  induction h generalizing as' with
  | nil =>
      rw [List.sublist_nil.1 hsub]
      exact .nil
  | cons hab _ ih =>
      cases hsub with
      | cons _ hsub => exact .cons_right (ih hsub)
      | cons_cons _ hsub => exact .cons hab (ih hsub)
  | cons_right _ ih => exact .cons_right (ih hsub)

end

/-- Whether all results of the operation are among the names. -/
def Head.definesIn (names : List String) (head : Head) : Bool := head.resultNames.all (· ∈ names)

/-- A product of two values, of which one is known to be one. -/
structure UnitProduct where
  product : Value
  other : Value
  one : Value

namespace UnitProduct

variable {u : UnitProduct} {f g : Value → Value} {names : List String}
  {out out' source source' : List Head} {head : Head}

/-- The operands are the two factors, in either order. -/
def Factors (u : UnitProduct) (operands : List Value) : Prop :=
  operands = [u.other, u.one] ∨ operands = [u.one, u.other]

/-- If the operation defines one of the three values, it defines it to be what it is. -/
structure Suits (u : UnitProduct) (head : Head) : Prop where
  product : u.product.name ∈ head.resultNames → head.name = "arith.muli" ∧ u.Factors head.operands
  other : u.other.name ∈ head.resultNames → ¬ IsBinary head.name ∧ head.constant? = none
  one : u.one.name ∈ head.resultNames → ¬ IsBinary head.name ∧ head.constant? = some 1

/-- The product stands for itself or for the other factor, and the factors stand for themselves. -/
structure Guides (u : UnitProduct) (f : Value → Value) : Prop where
  product : f u.product = u.product ∨ f u.product = u.other
  other : f u.other = u.other
  one : f u.one = u.one

theorem Guides.comp (hf : u.Guides f) (hg : u.Guides g) : u.Guides (f ∘ g) where
  product := by
    rcases hg.product with hsame | hother
    · rw [Function.comp_apply, hsame]
      exact hf.product
    · rw [Function.comp_apply, hother]
      exact .inr hf.other
  other := by rw [Function.comp_apply, hg.other, hf.other]
  one := by rw [Function.comp_apply, hg.one, hf.one]

theorem Suits.mapOperands (h : u.Suits head) (hf : u.Guides f) : u.Suits (head.mapOperands f) := by
  refine ⟨fun hname => (h.product hname).imp_right fun hfactors => ?_, h.other, h.one⟩
  unfold Factors Head.mapOperands
  rcases hfactors with hoperands | hoperands
  · rw [hoperands]
    exact .inl (congrArg₂ (fun a b => [a, b]) hf.other hf.one)
  · rw [hoperands]
    exact .inr (congrArg₂ (fun a b => [a, b]) hf.one hf.other)

/-- The operation is the original one, with its uses redirected. -/
def Led (u : UnitProduct) (kept original : Head) : Prop :=
  ∃ f, u.Guides f ∧ kept = original.mapOperands f

/-- In the place of some operations stand, in order, those of them that stay, with their uses
redirected; and between them others that use nothing, and define other names. -/
structure Follows (u : UnitProduct) (names : List String) (out source : List Head) : Prop where
  suits : ∀ head ∈ out, u.Suits head
  kept : List.SublistForall₂ u.Led (out.filter (Head.definesIn names)) source
  others : ∀ head ∈ out, head.definesIn names = false → head.operands = []

theorem Follows.nil : u.Follows names [] source := ⟨nofun, .nil, nofun⟩

theorem Follows.append (h : u.Follows names out source) (h' : u.Follows names out' source') :
    u.Follows names (out ++ out') (source ++ source') where
  suits := List.forall_mem_append.2 ⟨h.suits, h'.suits⟩
  kept := List.filter_append out out' ▸ sublistForall₂_append h.kept h'.kept
  others := List.forall_mem_append.2 ⟨h.others, h'.others⟩

theorem Follows.mapOperands (h : u.Follows names out source) (hf : u.Guides f) :
    u.Follows names (out.map (Head.mapOperands f)) source := by
  refine ⟨List.forall_mem_map.2 fun head hhead => (h.suits head hhead).mapOperands hf, ?_,
    List.forall_mem_map.2 fun head hhead hnew => ?_⟩
  · rw [List.filter_map, List.sublistForall₂_map_left_iff]
    refine sublistForall₂_imp (fun kept _ original hled => ?_) h.kept
    obtain ⟨g, hg, rfl⟩ := hled
    exact ⟨f ∘ g, hf.comp hg, by simp [Head.mapOperands]⟩
  · rw [Head.mapOperands, h.others head hhead hnew]
    rfl

theorem Follows.of_mapOperands (h : u.Follows names out (source.map (Head.mapOperands f)))
    (hf : u.Guides f) :
    u.Follows names out source := by
  refine ⟨h.suits, sublistForall₂_imp (fun kept _ original hled => ?_)
    (List.sublistForall₂_map_right_iff.1 h.kept), h.others⟩
  obtain ⟨g, hg, rfl⟩ := hled
  exact ⟨g ∘ f, hg.comp hf, by simp [Head.mapOperands]⟩

theorem Follows.single (hsuits : u.Suits head) (hdefines : head.definesIn names = true) :
    u.Follows names [head] [head] where
  suits := List.forall_mem_singleton.2 hsuits
  kept := by
    rw [List.filter_singleton, hdefines]
    exact .cons ⟨id, ⟨.inl rfl, rfl, rfl⟩, by simp [Head.mapOperands]⟩ .nil
  others := List.forall_mem_singleton.2 fun hnew => absurd (hdefines.symm.trans hnew) (by decide)

/-- Where the product is not in use any more, its uses went over to the other factor. -/
theorem Follows.redirected (h : u.Follows names out source)
    (hunused : ∀ head ∈ out, u.product ∉ head.operands) :
    List.SublistForall₂ (fun kept original => ∃ f : Value → Value, f u.product = u.other
      ∧ kept = original.mapOperands f)
      (out.filter (Head.definesIn names)) source := by
  refine sublistForall₂_imp (fun kept hkept original hled => ?_) h.kept
  obtain ⟨f, hf, rfl⟩ := hled
  have hnone := hunused _ (List.mem_of_mem_filter hkept)
  refine ⟨Function.update f u.product u.other, Function.update_self .., ?_⟩
  have hmap : original.operands.map f = original.operands.map
    (Function.update f u.product u.other) := by
    refine List.map_congr_left fun operand hoperand => ?_
    by_cases hsame : operand = u.product
    · subst hsame
      rw [Function.update_self]
      refine hf.product.resolve_left fun hsame => hnone ?_
      exact List.mem_map.2 ⟨_, hoperand, hsame⟩
    · rw [Function.update_of_ne hsame]
  rw [Head.mapOperands, Head.mapOperands, hmap]

variable {root op : Operation} {definitions : Dict Operation} {drawn : List String}
  {recording : Recording}

/-- The three values are defined in a tree to be what they are, and there are enough numbers for
another name. -/
structure Posed (u : UnitProduct) (root : Operation) : Prop where
  suits : ∀ head ∈ root.heads, u.Suits head
  defined : u.product.name ∈ root.definedNames ∧ u.other.name ∈ root.definedNames
    ∧ u.one.name ∈ root.definedNames
  apart : u.other.name ≠ u.one.name
  room : root.definedNames.length < 2 ^ 64

theorem Posed.follows_constant (hposed : u.Posed root) {name : String}
    (hname : name ∉ root.definedNames) (ty : Ty) (value : Int64) (source : List Head) :
    u.Follows root.definedNames [(Operation.constant ⟨name, ty⟩ value).toHead] source := by
  have hnot {known : Value} (hknown : known.name ∈ root.definedNames) :
      known.name ∉ (Operation.constant ⟨name, ty⟩ value).resultNames := by
    intro hmem
    rw [List.mem_singleton.1 hmem] at hknown
    exact hname hknown
  refine ⟨List.forall_mem_singleton.2 ⟨fun hmem => absurd hmem (hnot hposed.defined.1),
    fun hmem => absurd hmem (hnot hposed.defined.2.1), fun hmem =>
      absurd hmem (hnot hposed.defined.2.2)⟩, ?_,
    List.forall_mem_singleton.2 fun _ => rfl⟩
  have hdefines : (Operation.constant ⟨name, ty⟩ value).toHead.definesIn
    root.definedNames = false := by
    simpa [Head.definesIn, Head.resultNames, Operation.constant] using hname
  rw [List.filter_singleton, hdefines]
  exact .nil

/-- One is one, and the other factor may be any number. -/
theorem exists_agrees (hapart : u.other.name ≠ u.one.name)
    (hknown : ∀ name op, definitions.get? name = some op → u.Suits op.toHead
      ∧ name ∈ op.resultNames)
    (x : Int) :
    ∃ env, Agrees definitions env ∧ env u.other.name = x ∧ env u.one.name = 1 := by
  refine ⟨fun name => if name = u.one.name then 1 else if name = u.other.name then x
    else (((definitions.get? name).bind (·.constant?)).map Int64.toInt).getD 0,
      fun value constant hconstant => ?_, ?_, ?_⟩
  · obtain ⟨op, hop, hvalue⟩ := Option.bind_eq_some_iff.1 hconstant
    obtain ⟨hsuits, hname⟩ := hknown value.name op hop
    dsimp only
    split
    next hone =>
      have hstored := (hsuits.one (hone ▸ hname)).2.symm.trans hvalue
      rw [← Option.some.inj hstored]
      rfl
    next =>
      split
      next hother => cases (hsuits.other (hother ▸ hname)).2.symm.trans hvalue
      next =>
        rw [hop, Option.bind_some, hvalue]
        rfl
  · exact (if_neg hapart).trans (if_pos rfl)
  · exact if_pos rfl

/-- **All that can come of the product is the other factor**: it is no constant, and it is not
one. -/
theorem recording_eq_of_simplifies (hapart : u.other.name ≠ u.one.name)
    (hknown : ∀ name op, definitions.get? name = some op → u.Suits op.toHead
      ∧ name ∈ op.resultNames)
    (hname : op.name = "arith.muli") (hfactors : u.Factors op.operands)
    (h : Simplifies definitions op drawn recording) :
    recording = ⟨[], some (.replace [u.other])⟩ := by
  have hvalue {env : String → Int} (hone : env u.one.name = 1) : value? env op.toHead
    = some (env u.other.name) := by
    have hcombine (x y : Int) : combine? op.name x y = some (x * y) := by
      rw [hname]
      rfl
    have hbinary : IsBinary op.name := .inr (.inr hname)
    rcases hfactors with hoperands | hoperands
    · rw [value?_of_binary hbinary hoperands, hcombine, hone, mul_one]
    · rw [value?_of_binary hbinary hoperands, hcombine, hone, one_mul]
  cases h with
  | keep value hmem _ _ hkept =>
      have hfactor : value = u.other ∨ value = u.one := by
        rcases hfactors with hoperands | hoperands
        · simpa [hoperands] using hmem
        · simpa [hoperands, or_comm] using hmem
      rcases hfactor with rfl | rfl
      · rfl
      · obtain ⟨env, hagrees, hother, hone⟩ := exists_agrees hapart hknown 2
        have hsame := (hvalue hone).symm.trans (hkept env hagrees)
        rw [hother, hone] at hsame
        cases hsame
  | fold name result constant _ _ hfolded =>
      have hconstant (x : Int) : x.bmod (2 ^ 64) = constant.toInt := by
        obtain ⟨env, hagrees, hother, hone⟩ := exists_agrees hapart hknown x
        obtain ⟨value, hcomputed, hsame⟩ := hfolded env hagrees
        rw [hvalue hone, hother] at hcomputed
        cases hcomputed
        exact hsame
      exact absurd ((hconstant 0).trans (hconstant 1).symm) (by decide)

/-! ### Sweeps -/

variable {patterns : FrozenPatterns σ} {config : Config} {depth : Nat} {ops : List Operation}
  {op' root' : Operation} {s s' : State σ} {offers own : List (Offer σ)}

/-- What is known in a sweep over the tree: definitions are what they are, the factors are not
replaced, and the product is replaced by the other factor at most. -/
structure Watched (u : UnitProduct) (root : Operation) (s : State σ) : Prop where
  definitions : s.Tended u.Suits fun _ => True
  replaced : ∀ name value, s.replaced.get? name = some value →
    name ≠ u.other.name ∧ name ≠ u.one.name ∧ (name = u.product.name → value = u.other)
  reserved : s.names.reserved = (namesFor root).reserved

namespace Watched

theorem guides (h : u.Watched root s) :
    u.Guides fun operand => (s.replaced.resolve? operand).getD operand := by
  have hother : s.replaced.get? u.other.name = none :=
    Option.eq_none_iff_forall_ne_some.2 fun value hvalue => (h.replaced _ value hvalue).1 rfl
  have hone : s.replaced.get? u.one.name = none :=
    Option.eq_none_iff_forall_ne_some.2 fun value hvalue => (h.replaced _ value hvalue).2.1 rfl
  refine ⟨?_, by rw [Replacements.resolve?_of_none hother, Option.getD_some],
    by rw [Replacements.resolve?_of_none hone, Option.getD_some]⟩
  cases hproduct : s.replaced.get? u.product.name with
  | none =>
      left
      rw [Replacements.resolve?_of_none hproduct, Option.getD_some]
  | some value =>
      right
      obtain rfl := (h.replaced _ value hproduct).2.2 rfl
      rw [Replacements.resolve?_of_some hproduct hother, Option.getD_some]

theorem of_tried {recording? : Option Recording} (h : u.Watched root s)
    (htried : Tried op drawn s recording? s') :
    u.Watched root s' where
  definitions := h.definitions.of_similar htried.similar
  replaced := htried.similar.replaced ▸ h.replaced
  reserved := htried.draws.reserved.trans h.reserved

theorem register (h : u.Watched root s) (hop : u.Suits op.toHead) :
    u.Watched root (s.register op) :=
  ⟨h.definitions.register hop, h.replaced, h.reserved⟩

theorem replace (h : u.Watched root s) {results values : List Value}
    (hresults : ∀ result ∈ results, result.name ≠ u.other.name ∧ result.name ≠ u.one.name
      ∧ (result.name = u.product.name → ∀ value ∈ values, value = u.other)) :
    u.Watched root (s.replace results values) := by
  have hdefinitions : (s.act results (some (.replace values))).Tended u.Suits fun _ => True :=
    h.definitions.act results fun _ _ _ _ => trivial
  refine ⟨hdefinitions, fun name value hvalue => ?_, h.reserved⟩
  rcases get?_foldl_replace hvalue with ⟨pair, hpair, rfl, rfl⟩ | hvalue
  · obtain ⟨hresult, hmem⟩ := List.of_mem_zip (List.mem_filter.1 hpair).1
    obtain ⟨hother, hone, hproduct⟩ := hresults pair.1 hresult
    exact ⟨hother, hone, fun hname => hproduct hname pair.2 hmem⟩
  · exact h.replaced name value hvalue

/-- A name that is drawn is none of the tree. -/
theorem fresh_not_mem (h : u.Watched root s) (hposed : u.Posed root) :
    s.names.fresh.1 ∉ root.definedNames := by
  intro hmem
  obtain ⟨number, hname, -⟩ := NameSupply.exists_fresh_fst_eq s.names
  have hread : Text.readUInt64? s.names.fresh.1 = some number := by
    rw [hname, Text.readUInt64?_toString]
  have hreserved : number ∈ s.names.reserved := by
    rw [h.reserved, NameSupply.mem_reserved_namesFor]
    exact List.mem_filterMap.2 ⟨_, hmem, hread⟩
  have hlength : s.names.reserved.length < 2 ^ 64 := by
    have hcalls : namesFor root = NameSupply.after {}
      (root.definedNames.map NameSupply.Call.reserve) := by
      rw [definedNames_eq_map, allResults, NameSupply.after, List.map_map, List.foldl_map]
      rfl
    have hle := NameSupply.length_reserved_after_le {}
      (root.definedNames.map NameSupply.Call.reserve)
    rw [← hcalls, ← h.reserved, List.length_map] at hle
    exact Nat.lt_of_le_of_lt hle (by simpa using hposed.room)
  exact NameSupply.fresh_ne_of_mem_reserved hlength hread hreserved rfl

/-- What a simplification replaces the results of an operation by may replace them. -/
theorem replaceable (h : u.Watched root s) (hposed : u.Posed root) (hop : u.Suits op.toHead)
    {values : List Value} (hsimplifies : Simplifies s.definitions op drawn recording)
    (haction : recording.action = some (.replace values)) :
    ∀ result ∈ op.results, result.name ≠ u.other.name ∧ result.name ≠ u.one.name
      ∧ (result.name = u.product.name → ∀ value ∈ values, value = u.other) := by
  intro result hresult
  have hname : result.name ∈ op.resultNames := List.mem_map_of_mem hresult
  have hbinary := hsimplifies.isBinary
  refine ⟨fun hother => (hop.other (hother ▸ hname)).1 hbinary,
    fun hone => (hop.one (hone ▸ hname)).1 hbinary, fun hproduct => ?_⟩
  obtain ⟨hmuli, hfactors⟩ := hop.product (hproduct ▸ hname)
  rw [recording_eq_of_simplifies hposed.apart h.definitions.definitions hmuli hfactors
    hsimplifies] at haction
  cases haction
  exact List.forall_mem_singleton.2 rfl

/-- **What becomes of an operation that is offered**: it stays, or what comes in its place is
new. -/
theorem offer (h : u.Watched root s) (hpatterns : patterns.patterns ⊆ simplifications)
    (hposed : u.Posed root) (hop : u.Suits op.toHead) {recording? : Option Recording}
    (hreturns : Returns (applyPatterns patterns config depth op) s recording? s') :
    u.Watched root (Offer.next ⟨depth, op, s, recording?, s'⟩)
      ∧ (recording? = none
        ∨ ∀ source, u.Follows root.definedNames
          (headsOfAll (Offer.out ⟨depth, op, s, recording?, s'⟩)) source) := by
  have htried := (ensures_applyPatterns patterns config [] depth op s).of_returns hreturns
  have hafter := h.of_tried htried
  cases recording? with
  | none => exact ⟨hafter.register hop, .inl rfl⟩
  | some recording =>
      have hmatch : Encounter.match? patterns config ⟨[], depth, op, s⟩ = some _ :=
        match?_of_returns patterns config hreturns
      obtain ⟨-, -, hsimplifies⟩ := simplifies_of_match? hpatterns hmatch
      have hdrawn : drawnIn patterns config [⟨[], depth, op, s⟩]
        = drawnBy depth op (patterns.patternsFor op.name) s :=
        drawnIn_of_returns patterns config hreturns
      have hdraws := hdrawn ▸ htried.draws
      dsimp only at hsimplifies
      have hresults {values : List Value} (haction : recording.action = some (.replace values)) :=
        h.replaceable hposed hop hsimplifies haction
      generalize drawnBy depth op (patterns.patternsFor op.name) s = drawn at hsimplifies hdraws
      cases hsimplifies with
      | keep value => exact ⟨hafter.replace (hresults rfl), .inr fun _ => .nil⟩
      | fold name result constant =>
          have hfresh : name ∉ root.definedNames := hdraws.1 ▸ h.fresh_not_mem hposed
          have hnew := hposed.follows_constant hfresh result.ty constant
          exact ⟨(hafter.register ((hnew []).suits _ List.mem_cons_self)).replace (hresults rfl),
            .inr hnew⟩

end Watched

mutual

/-- What comes of the operations in a list follows them. -/
theorem follows_visitedAll (hpatterns : patterns.patterns ⊆ simplifications) (hposed : u.Posed root)
    {depth : Nat} {ops : List Operation} {s s' : State σ} {offers own : List (Offer σ)} :
    VisitedAll patterns config depth ops s offers own s' →
      (∀ head ∈ headsOfAll ops, u.Suits head ∧ head.definesIn root.definedNames = true) →
        u.Watched root s →
      u.Watched root s' ∧ u.Follows root.definedNames (headsOfAll (own.flatMap Offer.out))
        (headsOfAll ops)
  | .nil _ _, _, h => ⟨h, .nil⟩
  | @VisitedAll.cons _ _ _ op _ _ _ offer _ _ _ hinner hoffer hlater, hops, h => by
      rw [headsOfAll, List.forall_mem_append] at hops
      have hguides := h.guides
      have hheads : (s.replaced.applyTo op).heads = op.heads.map (Head.mapOperands _) :=
        heads_mapHeads _ op
      have hsubstituted : ∀ head ∈ (s.replaced.applyTo op).heads, u.Suits head
        ∧ head.definesIn root.definedNames = true := by
        rw [hheads]
        exact List.forall_mem_map.2 fun head hhead => (hops.1 head hhead).imp_left
          (·.mapOperands hguides)
      obtain ⟨hbefore, hhead, hnested⟩ := follows_visitedWithin hpatterns hposed hinner
        hsubstituted h
      obtain ⟨hsuits, hdefines⟩ := hsubstituted _ (heads_eq _ ▸ List.mem_cons_self)
      rw [← hhead] at hsuits hdefines
      obtain ⟨hnext, hout⟩ := hbefore.offer hpatterns hposed hsuits hoffer
      obtain ⟨hs', hrest⟩ := follows_visitedAll hpatterns hposed hlater hops.2 hnext
      refine ⟨hs', ?_⟩
      rw [List.flatMap_cons, headsOfAll_append, headsOfAll]
      refine .append ?_ hrest
      rcases hout with hstays | hnew
      · have hout : offer.out = [offer.op] := by rw [Offer.out, hstays]
        have hwhole : u.Follows root.definedNames offer.op.heads (s.replaced.applyTo op).heads := by
          rw [heads_eq, heads_eq (s.replaced.applyTo op), ← hhead]
          exact (Follows.single hsuits hdefines).append hnested
        rw [hout, headsOfAll_singleton]
        exact (hheads ▸ hwhole).of_mapOperands hguides
      · exact hnew op.heads

/-- What comes of the operations in a region follows them. -/
theorem follows_visitedWithin (hpatterns : patterns.patterns ⊆ simplifications)
    (hposed : u.Posed root) {depth : Nat} {op op' : Operation} {s s' : State σ}
    {offers : List (Offer σ)} :
    VisitedWithin patterns config depth op s offers op' s' →
      (∀ head ∈ op.heads, u.Suits head ∧ head.definesIn root.definedNames = true) →
        u.Watched root s →
      u.Watched root s' ∧ op'.toHead = op.toHead
        ∧ u.Follows root.definedNames (headsOfAll op'.nested) (headsOfAll op.nested)
  | .leaf _ _ _, _, h => ⟨h, rfl, .nil⟩
  | .region hops, hop, h => by
      rw [heads, List.forall_mem_cons] at hop
      obtain ⟨hs', hout⟩ := follows_visitedAll hpatterns hposed hops hop.2 h
      exact ⟨hs', rfl, hout⟩

end

/-- **What a sweep leaves of a tree follows it.** -/
theorem follows_of_returns_sweep (hpatterns : patterns.patterns ⊆ simplifications)
    (hposed : u.Posed root) (hbottom : config.topDown = false) (hnames : s.names = namesFor root)
    (hreplaced : s.replaced = .empty) (h : Returns (sweep patterns config root) s root' s') :
    u.Follows root.definedNames root'.heads root.heads := by
  rw [sweep_eq, Returns.modify_bind_iff] at h
  obtain ⟨swept, between, hvisit, hfinish⟩ := Returns.bind_iff.1 h
  obtain ⟨offers, hvisited⟩ := exists_visitedWithin hbottom _ 0 hvisit
  have hstart : u.Watched root { s with definitions := .empty } := by
    refine ⟨⟨fun name op hget => ?_, fun _ _ _ => trivial⟩, fun name value hget => ?_, hnames ▸ rfl⟩
    · rw [Dict.get?_empty] at hget
      cases hget
    · dsimp only at hget
      rw [hreplaced, Dict.get?_empty] at hget
      cases hget
  have hroot : ∀ head ∈ root.heads, u.Suits head ∧ head.definesIn root.definedNames = true := by
    refine fun head hhead =>
      ⟨hposed.suits head hhead, List.all_eq_true.2 fun name hname => decide_eq_true ?_⟩
    exact List.mem_flatMap.2 ⟨head, hhead, hname⟩
  obtain ⟨hbetween, hhead, hnested⟩ := follows_visitedWithin hpatterns hposed hvisited hroot hstart
  obtain ⟨hsuits, hdefines⟩ := hroot root.toHead (heads_eq root ▸ List.mem_cons_self)
  have hwhole : u.Follows root.definedNames swept.heads root.heads := by
    rw [heads_eq, heads_eq root, hhead]
    exact (Follows.single hsuits hdefines).append hnested
  rw [eq_applyTo_of_returns_finish hfinish, Replacements.applyTo, Operation.mapOperands,
    heads_mapHeads]
  exact hwhole.mapOperands hbetween.guides

/-- **What cannot be simplified holds no product with one.** -/
theorem product_not_mem (hsuits : ∀ head ∈ root.heads, u.Suits head) (hscoped : root.Scoped [])
    (hroot : Irreducible root) :
    u.product.name ∉ root.definedNames := by
  intro hproduct
  obtain ⟨head, hhead, hname⟩ := List.mem_flatMap.1 hproduct
  obtain ⟨hmuli, hfactors⟩ := (hsuits head hhead).product hname
  have hmem : u.one ∈ head.operands := by
    rcases hfactors with hoperands | hoperands
    · simp [hoperands]
    · simp [hoperands]
  have hone := (hscoped.mem_of_operand u.one (List.mem_flatMap.2 ⟨head, hhead, hmem⟩)).resolve_left
    List.not_mem_nil
  obtain ⟨definer, hdefiner, hdefines⟩ := List.mem_flatMap.1 hone
  have hnested : head ∈ headsOfAll root.nested := by
    rw [heads_eq] at hhead
    refine (List.mem_cons.1 hhead).resolve_left ?_
    rintro rfl
    exact absurd ((scoped_iff.1 hscoped).1 u.one hmem) List.not_mem_nil
  have hconstant : ConstantIn (headsOfAll root.nested) u.one.name 1 :=
    ⟨definer, hdefiner, hdefines,
      ((hsuits definer (heads_eq root ▸ List.mem_cons_of_mem _ hdefiner)).one hdefines).2⟩
  refine hroot head hnested ?_
  rcases hfactors with hoperands | hoperands
  · exact .mulOne _ _ hmuli hoperands (.inr hconstant)
  · exact .mulOne _ _ hmuli hoperands (.inl hconstant)

/-! ### Modules that are read -/

/-- The module multiplies, in either order, a value that no arithmetic defines by one: by a constant
that is written as `1`, with the type behind it. -/
structure WrittenIn (u : UnitProduct) (ty : Ty) (m : Operation) : Prop where
  product : ∃ head ∈ m.heads, head.name = "arith.muli" ∧ head.results = [u.product]
    ∧ u.Factors head.operands
  other : ∃ head ∈ m.heads, u.other ∈ head.results ∧ head.name.dialect ≠ "arith"
  one : ∃ head ∈ m.heads, u.one ∈ head.results ∧ head.name = "arith.constant"
    ∧ ∃ text constant, Literal .integer (.int 64) false ['1'] ty text
    ∧ Attribute.read? text = some constant
      ∧ head.attributes.get? "value" = some constant

end UnitProduct

/-- One is stored as `1`, unless one bit has to do. -/
theorem Ty.truncate_one {ty : Ty} (hty : ty ≠ .int 1) : ty.truncate 1 = 1 := by
  by_cases h : ∃ bits, ty.width? = some bits ∧ 0 < bits ∧ bits < 64
  · obtain ⟨bits, hwidth, hpos, hlt⟩ := h
    have hne : bits ≠ 1 := by
      rintro rfl
      cases ty with
      | int bits =>
          cases hwidth
          exact hty rfl
      | index => exact absurd hwidth (by decide)
      | _ => cases hwidth
    have htwo : 2 ≤ bits.toNat := by
      have hpos' : 0 < bits.toNat := hpos
      have hne' : bits.toNat ≠ 1 := fun heq => hne (UInt32.toNat_inj.1 heq)
      omega
    have hpow : 2 ^ 2 ≤ 2 ^ bits.toNat := Nat.pow_le_pow_right (by decide) htwo
    have hone : (1 : Int64).toInt = 1 := by decide
    apply Int64.toInt_inj.1
    rw [Ty.toInt_truncate hwidth hpos hlt, hone]
    exact Int.bmod_eq_of_le (by omega) (by omega)
  · exact Ty.truncate_eq_self (fun bits hwidth hbits => h ⟨bits, hwidth, hbits⟩) 1

theorem Literal.read?_one {ty : Ty} {text : String} {constant : Attribute}
    (h : Literal .integer (.int 64) false ['1'] ty text)
    (hread : Attribute.read? text = some constant) (hty : ty ≠ .int 1) :
    constant = .integer 1 ty := by
  obtain ⟨value, hvalue, -, rfl⟩ := h.read?_integer.1 hread
  have hone : Text.readInt64? (String.ofList ['1']) = some 1 := by decide
  rw [if_neg Bool.false_ne_true, hone] at hvalue
  cases hvalue
  rw [Attribute.wrapped, Ty.truncate_one hty]

namespace UnitProduct

variable {u : UnitProduct} {ty : Ty} {m : Operation}

/-- Where every value is defined once, the three values are what the module defines them to be. -/
theorem WrittenIn.posed (h : u.WrittenIn ty m) (hty : ty ≠ .int 1) (hverify : m.verify = .ok ())
    (hroom : m.definedNames.length + weight binaryWeight m ≤ 2 ^ 64) : u.Posed m := by
  obtain ⟨muli, hmuli, hname, hresults, hfactors⟩ := h.product
  obtain ⟨definer, hdefiner, hother, hdialect⟩ := h.other
  obtain ⟨constant, hconstant, hone, hconstantName, text, stored, hliteral, hread, hstored⟩ := h.one
  have hnodup := (verify_eq_ok_iff.1 hverify).2
  have hproduct : u.product.name ∈ muli.resultNames :=
    List.mem_map_of_mem (hresults ▸ List.mem_singleton_self _)
  have hother' : u.other.name ∈ definer.resultNames := List.mem_map_of_mem hother
  have hone' : u.one.name ∈ constant.resultNames := List.mem_map_of_mem hone
  have hsame {head known : Head} {name : String} (hhead : head ∈ m.heads) (hknown : known ∈ m.heads)
      (hdefines : name ∈ head.resultNames) (hname : name ∈ known.resultNames) : head = known :=
    eq_of_mem_resultNames hnodup hhead hknown hdefines hname
  have harith : OpName.dialect "arith.constant" = "arith" := by decide +kernel
  refine ⟨fun head hhead => ⟨fun hdefines => ?_, fun hdefines => ?_, fun hdefines => ?_⟩,
    ⟨?_, ?_, ?_⟩, fun heq => ?_, ?_⟩
  · rw [hsame hhead hmuli hdefines hproduct]
    exact ⟨hname, hfactors⟩
  · rw [hsame hhead hdefiner hdefines hother']
    exact ⟨fun h => hdialect (dialect_of_isBinary h), if_neg fun hname =>
      hdialect ((congrArg OpName.dialect hname).trans harith)⟩
  · rw [hsame hhead hconstant hdefines hone', hconstantName]
    refine ⟨by decide, ?_⟩
    unfold Head.constant? Operation.constant?
    rw [if_pos hconstantName, hstored, hliteral.read?_one hread hty]
    rfl
  · exact List.mem_flatMap.2 ⟨muli, hmuli, hproduct⟩
  · exact List.mem_flatMap.2 ⟨definer, hdefiner, hother'⟩
  · exact List.mem_flatMap.2 ⟨constant, hconstant, hone'⟩
  · rw [hsame hdefiner hconstant hother' (heq ▸ hone'), hconstantName] at hdialect
    exact hdialect harith
  · have hweight : binaryWeight muli.name ≤ weight binaryWeight m :=
      List.le_sum_of_mem (List.mem_map_of_mem hmuli)
    have hpaid : binaryWeight muli.name = 1 := by
      rw [hname]
      decide
    omega

open PassManager in
/-- **Products with one go.** When canonicalization of a module that was read succeeds, a product of
a value that no arithmetic defines and of one, written with any type but that of one bit, is not
there any more, at whatever depth it stood. All operations that are left of the module are in their
order, and those that used the product use the other factor; operations that are new use nothing. (A
text in memory has less than `2 ^ 64` characters.) -/
theorem gone_of_canonicalizer {source : String} {context after : Context}
    (hlength : source.length ≤ 2 ^ 64) (hcontext : (Context.ofRegistry .standard).Uses context)
    (h : parse source context = (.ok m, after)) (hwritten : u.WrittenIn ty m) (hty : ty ≠ .int 1)
    (printing : Bool) (memory : σ) {left : Transformed σ} {changed : Bool}
    (hleft : ((canonicalizer printing).run m ⟨after, memory⟩).1 = left)
    (hok : left.result = .ok changed) :
    u.product.name ∉ left.op.definedNames ∧ u.product.name ∉ left.op.usedNames
      ∧ List.SublistForall₂ (fun kept original => ∃ f : Value → Value, f u.product = u.other
        ∧ kept = original.mapOperands f)
        (left.op.heads.filter (Head.definesIn m.definedNames)) m.heads
      ∧ ∀ head ∈ left.op.heads, head.definesIn m.definedNames = false → head.operands = [] := by
  obtain ⟨hverify, hroom⟩ := room_of_parse hlength h
  have hposed := hwritten.posed hty hverify hroom
  obtain ⟨hspace, hcollected⟩ := collected_of_parse (σ := σ) hcontext h <| by
    obtain ⟨muli, hmuli, hname, -⟩ := hwritten.product
    exact ⟨muli, hmuli, dialect_of_isBinary (.inr (.inr hname))⟩
  rw [run_canonicalizer hspace] at hleft
  dsimp only at hleft
  rw [hcollected] at hleft
  generalize canonicalizing printing m ⟨after, memory⟩ = noted at hleft
  subst hleft
  obtain ⟨outcome, hresult⟩ := Rewritten.exists_of_transformed hok
  have hfollows (s : State σ) (hbegins : s.Begins m noted)
      (_ : Between m (drawnIn ⟨simplifications⟩ {} (sweepEncounters ⟨simplifications⟩ {} m s)) s) :
      Ensures (sweep ⟨simplifications⟩ {} m) s
        (fun swept _ => u.Follows m.definedNames swept.heads m.heads) fun _ _ => True :=
    .of_forall_returns fun _ _ hreturns =>
      follows_of_returns_sweep (List.Subset.refl _) hposed rfl hbegins.names
        hbegins.replaced hreturns
  rcases applyGreedily_of_swept {} memory hverify (typed_of_parse h) hroom
    rfl rfl (by decide) hfollows with
    ⟨_, swept, -, -, hswept, hirreducible, hfollows, hop⟩ | ⟨error, hfails, -⟩
  swap
  · rw [hresult] at hfails
    cases hfails
  rw [Rewritten.op_transformed hresult, hop]
  have hheads := heads_removeDeadOps noted swept
  have hscoped := (verify_eq_ok_iff.1 hswept).1
  have hundefined := product_not_mem hfollows.suits hscoped hirreducible
  have hunused : ∀ head ∈ swept.heads, ∀ operand ∈ head.operands,
    operand.name ≠ u.product.name := by
    intro head hhead operand hoperand hname
    have hdefined :=
      (hscoped.mem_of_operand operand (List.mem_flatMap.2 ⟨head, hhead, hoperand⟩)).resolve_left
        List.not_mem_nil
    rw [definedNames_eq] at hundefined
    exact hundefined (List.mem_append_right _ (hname ▸ hdefined))
  refine ⟨fun hmem => hundefined ((hheads.flatMap _).subset hmem), fun hmem => ?_, ?_,
    fun head hhead => ?_⟩
  · obtain ⟨head, hhead, hname⟩ := List.mem_flatMap.1 hmem
    obtain ⟨operand, hoperand, hname⟩ := List.mem_map.1 hname
    exact hunused head (hheads.subset hhead) operand hoperand hname
  · refine sublistForall₂_of_sublist (hheads.filter _)
      (hfollows.redirected fun head hhead hmem => ?_)
    exact hunused head hhead u.product hmem rfl
  · exact hfollows.others head (hheads.subset hhead)

/-- One times the result of a call, in a text and in the module that it is read as. The product is
returned twice. -/
def ofCall (ty : Ty) : UnitProduct := ⟨⟨"y", ty⟩, ⟨"x", ty⟩, ⟨"one", ty⟩⟩

def ofCallText (ty : Ty) : String :=
  "%x = func.call : " ++ ty.text ++ "\n%one = arith.constant \x7bvalue = 1 : " ++ ty.text
    ++ "\x7d : " ++ ty.text
    ++ "\n%y = arith.muli %one, %x : " ++ ty.text ++ "\nfunc.return %y, %y"

def ofCallModule (ty : Ty) : Operation :=
  .module [{ name := "func.call", results := [(ofCall ty).other] }, .constant (ofCall ty).one 1,
    { name := "arith.muli", operands := [(ofCall ty).one, (ofCall ty).other],
      results := [(ofCall ty).product] },
    { name := "func.return", operands := [(ofCall ty).product, (ofCall ty).product] }]

theorem writtenIn_ofCall {text : String} (hliteral : Literal .integer (.int 64) false ['1'] ty text)
    (hfits : ty.width?.all (Parse.fitsWidth 1) = true) :
    (ofCall ty).WrittenIn ty (ofCallModule ty) where
  product :=
    ⟨{ name := "arith.muli", operands := [(ofCall ty).one, (ofCall ty).other],
       results := [(ofCall ty).product] },
    by simp [ofCallModule, Operation.module, heads, headsOfAll], rfl, rfl, .inr rfl⟩
  other := ⟨{ name := "func.call", results := [(ofCall ty).other] },
    by simp [ofCallModule, Operation.module, heads, headsOfAll], List.mem_singleton_self _,
    show OpName.dialect "func.call" ≠ "arith" by decide +kernel⟩
  one := ⟨(Operation.constant (ofCall ty).one 1).toHead,
    by simp [ofCallModule, Operation.module, heads, headsOfAll, Operation.constant],
    List.mem_singleton_self _, rfl, text, _,
    hliteral, hliteral.read?_integer.2 ⟨1, by decide, hfits, rfl⟩, rfl⟩

/-- What canonicalization makes of a text that is read can be evaluated. -/
theorem exists_canonicalizer_of_parse (source : String) (m : Operation)
    (P : Transformed Unit → Prop) (h : (parse source (.ofRegistry .standard)).1.toOption = some m
      ∧ P ((applyGreedily ⟨(parse source (.ofRegistry .standard)).2.collected⟩ {} m
        (PassManager.canonicalizing false m ⟨(parse source (.ofRegistry .standard)).2, ()⟩)
        ()).transformed "canonicalize" m)) :
    ∃ after, parse source (.ofRegistry .standard) = (.ok m, after)
      ∧ P ((PassManager.canonicalizer false).run m ⟨after, ()⟩).1 := by
  have hloads := loads_parse source (.ofRegistry .standard)
  generalize parse source (.ofRegistry .standard) = read at h hloads
  refine ⟨read.2, Prod.ext (eq_ok_of_toOption h.1) rfl, ?_⟩
  rw [PassManager.run_canonicalizer (Context.knowsArith_standard.of_uses hloads.uses)]
  exact h.2

/-- Two bits are enough. -/
theorem gone_of_canonicalizer_twoBits :
    ∃ (after : Context) (left : Transformed Unit) (changed : Bool),
    parse (ofCallText (.int 2)) (.ofRegistry .standard) = (.ok (ofCallModule (.int 2)), after)
      ∧ (ofCall (.int 2)).WrittenIn (.int 2) (ofCallModule (.int 2))
      ∧ ((PassManager.canonicalizer false).run (ofCallModule (.int 2)) ⟨after, ()⟩).1 = left
      ∧ left.result = .ok changed
      ∧ "y" ∉ left.op.definedNames ∧ "y" ∉ left.op.usedNames := by
  have hliteral : Literal .integer (.int 64) false ['1'] (.int 2) "1 : i2" :=
    ⟨[], ⟨.integer, "1", ⟨0, 0⟩⟩, ⟨.colon, ":", ⟨0, 2⟩⟩,
      [⟨.bare, "i2", ⟨0, 4⟩⟩, ⟨.eof, "", ⟨0, 6⟩⟩],
      { here := ⟨.eof, "", ⟨0, 6⟩⟩, later := [], context := {} }, by
        decide +kernel, rfl, rfl, rfl, by rfl, rfl⟩
  have hwritten := writtenIn_ofCall hliteral (by decide)
  obtain ⟨after, hparse, hok⟩ := exists_canonicalizer_of_parse (ofCallText (.int 2))
    (ofCallModule (.int 2)) (fun left => left.result.toOption = some true) (by decide +kernel)
  obtain ⟨hdefined, hused, -⟩ := gone_of_canonicalizer (by decide +kernel) (.refl _) hparse hwritten
    (by decide) false () rfl
    (eq_ok_of_toOption hok)
  exact ⟨after, _, true, hparse, hwritten, rfl, eq_ok_of_toOption hok, hdefined, hused⟩

/-- With one bit, canonicalization succeeds and the product stays, and is used as it was. -/
theorem exists_product_stays : ∃ (after : Context) (left : Transformed Unit) (changed : Bool),
    parse (ofCallText (.int 1)) (.ofRegistry .standard) = (.ok (ofCallModule (.int 1)), after)
      ∧ (ofCall (.int 1)).WrittenIn (.int 1) (ofCallModule (.int 1))
      ∧ ((PassManager.canonicalizer false).run (ofCallModule (.int 1)) ⟨after, ()⟩).1 = left
      ∧ left.result = .ok changed
      ∧ "y" ∈ left.op.definedNames ∧ "y" ∈ left.op.usedNames := by
  have hliteral : Literal .integer (.int 64) false ['1'] (.int 1) "1 : i1" :=
    ⟨[], ⟨.integer, "1", ⟨0, 0⟩⟩, ⟨.colon, ":", ⟨0, 2⟩⟩,
      [⟨.bare, "i1", ⟨0, 4⟩⟩, ⟨.eof, "", ⟨0, 6⟩⟩],
      { here := ⟨.eof, "", ⟨0, 6⟩⟩, later := [], context := {} }, by
        decide +kernel, rfl, rfl, rfl, by rfl, rfl⟩
  obtain ⟨after, hparse, hok, hdefined, hused⟩ :=
    exists_canonicalizer_of_parse (ofCallText (.int 1)) (ofCallModule (.int 1))
    (fun left => left.result.toOption = some false ∧ "y" ∈ left.op.definedNames
      ∧ "y" ∈ left.op.usedNames)
    (by decide +kernel)
  exact ⟨after, _, false, hparse, writtenIn_ofCall hliteral (by decide), rfl, eq_ok_of_toOption hok,
    hdefined, hused⟩

end UnitProduct

end DialectIR
