import DialectIR.Proofs.Canonicalization
import DialectIR.Proofs.Findings

/-! What is found by going through a tree once comes true in a sweep of simplifications: when it
comes to an operation, it knows of the operands what was found of them. So it is known beforehand
which operations go, and on which the sweep fails. -/

namespace DialectIR

namespace Greedy

open Operation

variable {σ : Type} {op : Operation} {ops inserted : List Operation} {new : List String}
  {s s' : State σ}

/-- The definitions of all visible values are known. -/
def State.Covers (s : State σ) (visible : List String) : Prop :=
  ∀ name ∈ visible, (s.definitions.get? name).isSome

theorem State.Covers.mono {visible visible' : List String} (h : s.Covers visible)
    (hsub : visible' ⊆ visible) :
    s.Covers visible' := fun name hname => h name (hsub hname)

theorem State.Covers.register (h : s.Covers new) (op : Operation) :
    (s.register op).Covers (visibleAfter new [op]) := by
  intro name hname
  unfold State.register
  rw [get?_foldl_insert_eq]
  split
  next => rfl
  next hother =>
    rw [mem_visibleAfter, List.flatMap_singleton] at hname
    exact h name (hname.resolve_left hother)

/-- An action forgets the definitions of results only. -/
theorem State.Covers.act {visible : List String} (h : s.Covers visible) {results : List Value}
    (action : Option Action) (hapart : ∀ name ∈ visible, name ∉ results.map Value.name) :
    (s.act results action).Covers visible := by
  have hforget {results' : List Value} (hsub : results' ⊆ results) (name : String)
    (hname : name ∈ visible) :
      ((results'.foldl (fun known result => known.erase result.name) s.definitions).get?
        name).isSome := by
    have hmem : name ∉ results'.map Value.name := fun hmem =>
      hapart name hname (List.map_subset _ hsub hmem)
    rw [get?_foldl_erase_eq, if_neg hmem]
    exact h name hname
  rcases action with _ | (values | _ | kept)
  · exact h
  · refine hforget fun result hresult => ?_
    obtain ⟨pair, hpair, rfl⟩ := List.mem_map.1 hresult
    exact (List.of_mem_zip (List.mem_filter.1 hpair).1).1
  · exact hforget (List.Subset.refl _)
  · exact h

end Greedy

namespace Arith

open Greedy Operation

variable {σ : Type} {found : String → Option Finding}

/-- An operation that tells what is found, and that no simplification has anything to make of. -/
structure Stays (found : String → Option Finding) (head : Head) : Prop where
  tells : Tells found head
  stays : reduct? (Finding.of found) head = none

/-- An operation that is simplified to something, but has not one result that could be replaced. -/
def Stuck (found : String → Option Finding) (head : Head) : Prop :=
  (reduct? (Finding.of found) head).isSome ∧ head.results.length ≠ 1

instance (found : String → Option Finding) (head : Head) : Decidable (Stuck found head) :=
  inferInstanceAs (Decidable (_ ∧ _))

theorem Stays.not_stuck {head : Head} (h : Stays found head) : ¬ Stuck found head := by
  rintro ⟨hsome, -⟩
  rw [h.stays] at hsome
  cases hsome

variable (σ) in
/-- The error of a simplification on an operation that is stuck. It is tried where what is seen of
the operands is what is found, and makes something of them, but cannot replace the results. -/
def Strands (found : String → Option Finding) (heads : List Head) (error : Error) : Prop :=
  ∃ head ∈ heads, Stuck found head ∧ ∃ (definitions : Dict Operation) (operands : List Value),
    operands.map (seen definitions) = head.operands.map (Finding.of found)
      ∧ Refuses (σ := σ) (trials (seen definitions) head.name operands) head error

/-- The definitions of all visible values are known, and what they tell is found; so is what
replaced values stand for. -/
structure Foreseen (found : String → Option Finding) (visible : List String)
    (s : State σ) : Prop where
  covers : s.Covers visible
  definitions : ∀ name op, s.definitions.get? name = some op → Stays found op.toHead
    ∧ name ∈ op.resultNames
  replaced : ∀ name value, s.replaced.get? name = some value →
    found name = some (Finding.of found value)
  erased : s.erased = []

variable {config : Config} {old new drawn : List String} {op op' : Operation}
  {ops out : List Operation}
  {s s' : State σ} {levels : Nat} {heads heads' : List Head} {head : Head} {f : Value → Value}

theorem Foreseen.mono {visible visible' : List String} (h : Foreseen found visible s)
    (hsub : visible' ⊆ visible) :
    Foreseen found visible' s := ⟨h.covers.mono hsub, h.definitions, h.replaced, h.erased⟩

theorem Foreseen.of_similar (h : Foreseen found new s) (hsimilar : s.Similar s') :
    Foreseen found new s' where
  covers name hname := hsimilar.definitions ▸ h.covers name hname
  definitions := hsimilar.definitions ▸ h.definitions
  replaced := hsimilar.replaced ▸ h.replaced
  erased := hsimilar.erased.trans h.erased

/-- **What is known of a visible value is what is found.** -/
theorem Foreseen.seen_eq (h : Foreseen found new s) {value : Value} (hvisible : value.name ∈ new) :
    seen s.definitions value = Finding.of found value := by
  obtain ⟨op, hop⟩ := Option.isSome_iff_exists.1 (h.covers value.name hvisible)
  obtain ⟨⟨htells, hstays⟩, hresult⟩ := h.definitions value.name op hop
  have hknown : known? s.definitions value = op.toHead.constant? := by
    unfold known?
    rw [hop]
    rfl
  have htold : found value.name = op.toHead.constant?.map .integer := by
    rw [htells value.name hresult]
    unfold finding?
    rw [hstays]
    cases op.toHead.constant? with
    | some x => rfl
    | none => cases op.results with
        | nil => rfl
        | cons result results => cases results with
            | nil => rfl
            | cons => rfl
  unfold seen Finding.of
  rw [hknown, htold]
  cases op.toHead.constant? with
  | none => rfl
  | some x => rfl

theorem Foreseen.follow? (h : Foreseen found new s) {steps : Nat} {value last : Value}
    (hlast : s.replaced.follow? steps value = some last) :
    Finding.of found last = Finding.of found value := by
  induction steps generalizing value with
  | zero =>
      unfold Replacements.follow? at hlast
      split at hlast
      · cases hlast
        rfl
      · cases hlast
      · cases ‹0 = _ + 1›
  | succ steps ih =>
      unfold Replacements.follow? at hlast
      cases hget : s.replaced.get? value.name with
      | none =>
          rw [hget] at hlast
          cases hlast
          rfl
      | some next =>
          rw [hget] at hlast
          rw [ih hlast, Finding.of.eq_def found value, h.replaced value.name next hget,
            Option.getD_some]

theorem Foreseen.exists_mapOperands (h : Foreseen found new s)
    (hop : op' = op ∨ op' = s.replaced.applyTo op) :
    ∃ f, (∀ value, Finding.of found (f value) = Finding.of found value)
      ∧ op'.heads = op.heads.map (Head.mapOperands f) := by
  rcases hop with rfl | rfl
  · have hid : Head.mapOperands id = id := funext fun _ => Head.mapOperands_of_forall fun _ _ => rfl
    exact ⟨id, fun _ => rfl, by rw [hid, List.map_id]⟩
  · refine ⟨_, fun value => ?_, heads_mapHeads _ op⟩
    cases hresolve : s.replaced.resolve? value with
    | none => rfl
    | some last => exact h.follow? hresolve

section

variable (hf : ∀ value, Finding.of found (f value) = Finding.of found value)

include hf

theorem map_of_mapOperands (head : Head) :
    (head.mapOperands f).operands.map (Finding.of found)
      = head.operands.map (Finding.of found) := by
  rw [Head.mapOperands, List.map_map]
  exact List.map_congr_left fun value _ => hf value

theorem Tells.mapOperands (h : Tells found head) : Tells found (head.mapOperands f) :=
  fun name hname =>
  (h name hname).trans (finding?_congr rfl rfl rfl (map_of_mapOperands hf head).symm)

theorem stuck_mapOperands_iff (head : Head) :
    Stuck found (head.mapOperands f) ↔ Stuck found head := by
  unfold Stuck
  rw [isSome_reduct?_congr (by rfl) (map_of_mapOperands hf head)]
  rfl

theorem Strands.of_mapOperands {error : Error}
    (h : Strands σ found (heads.map (Head.mapOperands f)) error) :
    Strands σ found heads error := by
  obtain ⟨_, hmem, hstuck, definitions, operands, hseen, pattern, reduct, hpattern, cause,
    hmisfit, rfl⟩ := h
  obtain ⟨head, hhead, rfl⟩ := List.mem_map.1 hmem
  rw [map_of_mapOperands hf] at hseen
  refine ⟨head, hhead, (stuck_mapOperands_iff hf head).1 hstuck, definitions, operands, hseen,
    pattern, reduct, hpattern, cause, ?_, rfl⟩
  cases hmisfit with
  | noResult hresults => exact .noResult hresults
  | resultCount hresults => exact .resultCount hresults

end

/-! ### Matches -/

theorem Strands.mono {error : Error} (h : Strands σ found heads error) (hsub : heads ⊆ heads') :
    Strands σ found heads' error := by
  obtain ⟨head, hhead, hstuck⟩ := h
  exact ⟨head, hsub hhead, hstuck⟩

theorem Foreseen.register (h : Foreseen found new s) (hop : Stays found op.toHead) :
    Foreseen found (visibleAfter new [op]) (s.register op) where
  covers := h.covers.register op
  definitions name known hknown := by
    rcases get?_foldl_insert hknown with ⟨rfl, hname⟩ | hknown
    · exact ⟨hop, hname⟩
    · exact h.definitions name known hknown
  replaced := h.replaced
  erased := h.erased

/-- Replacing one result by a value that stands for it. -/
theorem Foreseen.replace (h : Foreseen found new s) {result value : Value}
    (hresult : result.name ∉ new) (hvalue : found result.name = some (Finding.of found value)) :
    Foreseen found new (s.replace [result] [value]) where
  covers :=
    have hact : (s.act [result] (some (.replace [value]))).Covers new :=
      h.covers.act _ fun name hname hmem =>
      hresult (List.mem_singleton.1 hmem ▸ hname)
    hact
  definitions name known hknown := h.definitions name known (get?_foldl_erase hknown)
  replaced name other hother := by
    rcases get?_foldl_replace hother with ⟨pair, hpair, rfl, rfl⟩ | hother
    · have hboth := (List.mem_filter.1 hpair).1
      rw [List.zip_cons_cons, List.zip_nil_right, List.mem_singleton] at hboth
      rw [hboth]
      exact hvalue
    · exact h.replaced name other hother
  erased := h.erased

/-- The constants that are inserted at some encounters are among those that are found. -/
def Foretells (found : String → Option Finding) (config : Config)
    (encounters : List (Encounter σ)) : Prop :=
  ∀ e ∈ encounters, ∀ m, e.match? ⟨simplifications⟩ config = some m → ∀ new ∈ m.recording.inserted,
    Tells found new.toHead

theorem Foretells.append {encounters more : List (Encounter σ)} :
    Foretells found config (encounters ++ more)
    ↔ Foretells found config encounters ∧ Foretells found config more := List.forall_mem_append

variable (found config) in
/-- Visiting what an operation holds, through a number of levels, leaves nothing in it that could be
simplified. It fails on what is stuck; and it comes to all of it, if what an operation holds is
visited first. -/
def ClearsWithin (levels : Nat) (within : Operation → Step σ Operation)
    (inside : List String → Operation → State σ → List (Encounter σ)) : Prop :=
  ∀ (new : List String) (op : Operation) (s : State σ), op.height ≤ levels →
    Foretells found config (inside new op s) →
    Entry (new ++ s.erasedNames) new op.nested
      (drawnIn ⟨simplifications⟩ config (inside new op s)) s →
    (∀ head ∈ headsOfAll op.nested, Tells found head) → Foreseen found new s →
    Ensures (within op) s (fun op' s' => op'.toHead = op.toHead
      ∧ (∀ head ∈ headsOfAll op'.nested, Stays found head)
        ∧ Foreseen found new s'
        ∧ (config.topDown = false → ∀ head ∈ headsOfAll op.nested, ¬ Stuck found head))
      fun error _ => Strands σ found (headsOfAll op.nested) error

variable {within : Operation → Step σ Operation}
  {inside : List String → Operation → State σ → List (Encounter σ)}

/-- An operation that is not simplified stays. -/
theorem ensures_commit_stays (hwithin : ClearsWithin found config levels within inside)
    (hheight : config.topDown = true → op.height ≤ levels)
    (hforetells : Foretells found config (innerEncounters config inside new op {} s))
    (hentry : Entry (new ++ s.erasedNames) new [op]
      (drawnIn ⟨simplifications⟩ config (innerEncounters config inside new op {} s)) s)
    (hop : Stays found op.toHead) (htells : ∀ head ∈ headsOfAll op.nested, Tells found head)
    (hnested : config.topDown = false → ∀ head ∈ headsOfAll op.nested, Stays found head)
    (h : Foreseen found new s) :
    Ensures (commit config within op {}) s
      (fun out s' => (∀ head ∈ headsOfAll out, Stays found head)
        ∧ Foreseen found (visibleAfter new out) s')
      fun error _ => Strands σ found op.heads error := by
  have hinside : Ensures (if config.topDown then within op else pure op) s
    (fun op' s' => op'.toHead = op.toHead
        ∧ (∀ head ∈ headsOfAll op'.nested, Stays found head) ∧ Foreseen found new s')
      fun error _ => Strands σ found op.heads error := by
    change Entry _ _ _ (drawnIn _ _ (if config.topDown then inside new op s else [])) s at hentry
    change Foretells found config (if config.topDown then inside new op s else []) at hforetells
    cases htopDown : config.topDown with
    | true =>
        rw [htopDown] at hentry hforetells
        have hvisited := hwithin new op s (hheight htopDown) hforetells hentry.nested htells h
        apply (hvisited.weaken fun error _ hstrands => hstrands.mono ?_).mono
        · rintro op' s' _ ⟨hhead, hstays, h', -⟩
          exact ⟨hhead, hstays, h'⟩
        · rw [heads_eq]
          exact List.subset_cons_self _ _
    | false => exact ⟨rfl, hnested htopDown, h⟩
  unfold commit
  rw [Ensures.modify_bind_iff]
  show Ensures (visit.settle config within [] op) s _ _
  rw [settle_eq]
  apply hinside.bind
  rintro op' s' _ ⟨hhead, hstays, h'⟩
  refine ⟨?_, h'.register (hhead ▸ hop)⟩
  show ∀ head ∈ headsOfAll [op'], Stays found head
  rw [headsOfAll_singleton, heads_eq, hhead]
  exact List.forall_mem_cons.2 ⟨hop, hstays⟩

/-- What takes the place of an operation that is simplified. -/
theorem ensures_commit_reduced {reduct : Reduct} {names more : List String} {recording : Recording}
    (hreduct : reduct? (Finding.of found) op.toHead = some reduct) (htells : Tells found op.toHead)
    (hleaves : Leaves op reduct names recording)
    (hinserted : ∀ new ∈ recording.inserted, Tells found new.toHead)
    (hentry : Entry (new ++ s.erasedNames) new [op] (names ++ more) s) (h : Foreseen found new s)
    (fails : Error → State σ → Prop) :
    Ensures (commit config within op recording) s
      (fun out s' => (∀ head ∈ headsOfAll out, Stays found head)
      ∧ Foreseen found (visibleAfter new out) s') fails := by
  have hdefined {result : Value} (hresults : op.results = [result]) : result.name
    ∈ op.resultNames := by
    rw [Head.resultNames, hresults]
    exact List.mem_cons_self
  have hfound {result : Value} (hresults : op.results = [result]) :
      found result.name = some (reduct.finding (Finding.of found) result.ty) :=
    (htells result.name (hdefined hresults)).trans (finding?_of_reduct? hresults hreduct)
  have hnew {result : Value} (hresults : op.results = [result]) : result.name ∉ new := by
    refine (hentry.unused result.name (resultNames_subset_claimed [op] _ ?_)).new
    rw [List.flatMap_singleton]
    exact hdefined hresults
  unfold commit
  rw [Ensures.modify_bind_iff]
  cases hleaves with
  | operand value hlength =>
      obtain ⟨result, hresults⟩ := List.length_eq_one_iff.1 hlength
      refine ⟨List.forall_mem_nil _, ?_⟩
      rw [hresults]
      exact h.replace (hnew hresults) (hfound hresults)
  | constant x name result hresults =>
      have htold : Tells found (Operation.constant ⟨name, result.ty⟩ x).toHead :=
        hinserted _ List.mem_cons_self
      have hconstant : Stays found (Operation.constant ⟨name, result.ty⟩ x).toHead := by
        refine ⟨htold, Option.eq_none_iff_forall_ne_some.2 fun reduct hsome => ?_⟩
        have hbinary : IsBinary "arith.constant" := isBinary_of_reduct? hsome
        revert hbinary
        decide
      have hvalue : Finding.of found ⟨name, result.ty⟩ = .integer (result.ty.truncate x) := by
        unfold Finding.of
        rw [htold name List.mem_cons_self]
        rfl
      refine ⟨List.forall_mem_singleton.2 hconstant, ?_⟩
      rw [hresults]
      refine (h.register hconstant).replace (fun hmem => ?_) (hvalue ▸ hfound hresults)
      rcases mem_visibleAfter.1 hmem with hsame | hmem
      · have hname : result.name = name := List.mem_singleton.1 hsame
        have hmem : result.name ∈ definedNamesOfAll [op] :=
          resultNames_subset_definedNamesOfAll [op]
            (List.mem_flatMap.2 ⟨op, List.mem_cons_self, hdefined hresults⟩)
        exact (List.nodup_append.1 hentry.nodup).2.2 result.name hmem name List.mem_cons_self hname
      · exact hnew hresults hmem

/-! ### Visits -/

theorem Leaves.names_eq {reduct : Reduct} {names : List String} {recording : Recording}
    (h : Leaves op reduct names recording) :
    names = (recording.inserted.map Operation.toHead).flatMap Head.resultNames := by
  cases h with
  | operand => rfl
  | constant => rfl

section

variable (hlimit : config.maxRewrites = none)

include hlimit

/-- What is found of an operation comes true: it stays or goes, or the sweep fails on it. -/
theorem ensures_match_cleared (hwithin : ClearsWithin found config levels within inside)
    (depth : Nat) (hheight : config.topDown = true → op.height ≤ levels)
    (hforetells : Foretells found config
      (encountersFrom ⟨simplifications⟩ config inside depth new op s))
    (hentry : Entry (new ++ s.erasedNames) new [op]
      (drawnIn ⟨simplifications⟩ config
        (encountersFrom ⟨simplifications⟩ config inside depth new op s)) s)
    (htells : ∀ head ∈ op.heads, Tells found head)
    (hnested : config.topDown = false → ∀ head ∈ headsOfAll op.nested, Stays found head)
    (h : Foreseen found new s) :
    Ensures (applyPatterns ⟨simplifications⟩ config depth op >>= fun recording? =>
      commit config within op (recording?.getD {})) s
      (fun out s' => (∀ head ∈ headsOfAll out, Stays found head)
        ∧ Foreseen found (visibleAfter new out) s'
        ∧ ¬ Stuck found op.toHead)
      fun error _ => Strands σ found op.heads error := by
  have hmem : op.toHead ∈ op.heads := heads_eq op ▸ List.mem_cons_self
  have hvisible : op.operands.map (seen s.definitions) = op.operands.map (Finding.of found) := by
    refine List.map_congr_left fun operand hoperand => h.seen_eq ?_
    have hscoped := (scoped_iff.1 (scopedAll_singleton.1 hentry.uses)).1 operand hoperand
    rw [State.erasedNames, h.erased, List.map_nil, List.append_nil] at hscoped
    exact hscoped
  have htried := ensures_applyPatterns_reduced hlimit depth op s
  rw [reduct?_congr hvisible] at htried
  refine (htried.weaken ?_).bind fun recording? s' hreturns hreduced => ?_
  · rintro error _ ⟨hsome, hrefuses⟩
    have hresults : op.results.length ≠ 1 := by
      obtain ⟨_, _, -, _, hmisfit, -⟩ := hrefuses
      exact hmisfit.results_ne
    exact ⟨op.toHead, hmem, ⟨hsome, hresults⟩, s.definitions, op.operands, hvisible, hrefuses⟩
  have hsimilar :=
    ((Greedy.ensures_applyPatterns ⟨simplifications⟩ config new depth op s).of_returns hreturns).similar
  have hforeseen := h.of_similar hsimilar
  have hfrom := encountersFrom_of_returns inside new hreturns
  rw [hfrom, Foretells.append] at hforetells
  rw [hfrom, drawnIn_append, ← hsimilar.agrees.erasedNames] at hentry
  have hentry' := hentry.congr hsimilar.agrees
  cases hreduct : reduct? (Finding.of found) op.toHead with
  | none =>
      rw [hreduct] at hreduced
      obtain rfl : recording? = none := hreduced
      have hnone : drawnIn ⟨simplifications⟩ config [(⟨new, depth, op, s⟩ : Encounter σ)] = [] :=
        drawnIn_of_returns ⟨simplifications⟩ config hreturns
      rw [hnone, List.nil_append] at hentry'
      have hstays : Stays found op.toHead := ⟨htells op.toHead hmem, hreduct⟩
      have hcommit := ensures_commit_stays hwithin hheight hforetells.2 hentry' hstays
        (fun head hhead => htells head (heads_eq op ▸ List.mem_cons_of_mem _ hhead))
          hnested hforeseen
      exact hcommit.mono fun out s'' _ hout => ⟨hout.1, hout.2, hstays.not_stuck⟩
  | some reduct =>
      rw [hreduct] at hreduced
      obtain ⟨names, recording, rfl, hleaves⟩ := hreduced
      have hmatch : Encounter.match? ⟨simplifications⟩ config ⟨new, depth, op, s⟩
          = some ⟨new, op, drawnBy depth op (FrozenPatterns.patternsFor ⟨simplifications⟩ op.name)
            s, recording⟩ :=
        match?_of_returns ⟨simplifications⟩ config hreturns
      obtain ⟨-, -, hsimplifies⟩ := simplifies_of_match? (List.Subset.refl _) hmatch
      have hdrawn : drawnIn ⟨simplifications⟩ config
        [(⟨new, depth, op, s⟩ : Encounter σ)] = names := by
        rw [hleaves.names_eq, hsimplifies.inserted.1]
        exact drawnIn_of_returns ⟨simplifications⟩ config hreturns
      rw [hdrawn] at hentry'
      have hinserted := hforetells.1 _ List.mem_cons_self _ hmatch
      apply (ensures_commit_reduced hreduct (htells op.toHead hmem) hleaves hinserted hentry'
        hforeseen _).mono
      exact fun out s'' _ hout => ⟨hout.1, hout.2, fun hstuck => hstuck.2 hleaves.results_length⟩

omit hlimit in
/-- The end of a sweep that has erased nothing. -/
theorem ensures_finish_of_unerased {root : Operation}
    (h : Entry ([] ++ s.erasedNames) [] [root] drawn s) (herased : s.erased = [])
    (fails : Error → State σ → Prop) : Ensures (finish root) s (fun _ _ => True) fails := by
  unfold finish
  apply (Greedy.ensures_substitute h _).bind
  rintro root' s _ ⟨rfl, -⟩
  rw [Ensures.modify_bind_iff, Ensures.get_bind_iff]
  dsimp only
  rw [Ensures.modify_bind_iff, herased]
  trivial

omit hlimit in
/-- What an operation holds is cleared before the operation is looked at, or left for later. -/
theorem ClearsWithin.ensures_first (hwithin : ClearsWithin found config levels within inside)
    (hheight : op.height ≤ levels)
    (hforetells : Foretells found config (if !config.topDown then inside new op s else []))
    (hentry : Entry (new ++ s.erasedNames) new [op]
      (drawnIn ⟨simplifications⟩ config (if !config.topDown then inside new op s else [])) s)
    (htells : ∀ head ∈ headsOfAll op.nested, Tells found head) (h : Foreseen found new s) :
    Ensures (if !config.topDown then within op else pure op) s
      (fun op' s' => op'.toHead = op.toHead ∧ Foreseen found new s'
        ∧ (∀ head ∈ headsOfAll op'.nested, Tells found head) ∧ (config.topDown = true → op' = op)
        ∧ (config.topDown = false → (∀ head ∈ headsOfAll op'.nested, Stays found head)
          ∧ ∀ head ∈ headsOfAll op.nested, ¬ Stuck found head)
        ∧ ∀ head ∈ op'.heads, Stuck found head → head ∈ op.heads)
      fun error _ => Strands σ found (headsOfAll op.nested) error := by
  cases htopDown : config.topDown with
  | true => exact ⟨rfl, h, htells, fun _ => rfl, nofun, fun _ hhead _ => hhead⟩
  | false =>
      rw [htopDown] at hentry hforetells
      apply (hwithin new op s hheight hforetells hentry.nested htells h).mono
      rintro op' s' _ ⟨hhead, hstays, h', hfree⟩
      refine ⟨hhead, h', fun head hmem => (hstays head hmem).tells, nofun,
        fun _ => ⟨hstays, hfree htopDown⟩, fun head hmem hstuck => ?_⟩
      rw [heads_eq, List.mem_cons, hhead] at hmem
      rcases hmem with rfl | hnested
      · exact heads_eq op ▸ List.mem_cons_self
      · exact absurd hstuck (hstays head hnested).not_stuck

theorem ensures_visit_cleared (hwalks : WalksInto ⟨simplifications⟩ config levels within inside)
    (hwithin : ClearsWithin found config levels within inside) (depth : Nat)
    (hheight : op.height ≤ levels)
    (hforetells : Foretells found config
      (visitEncounters ⟨simplifications⟩ config within inside depth new op s))
    (hentry : Entry old new [op]
      (drawnIn ⟨simplifications⟩ config
        (visitEncounters ⟨simplifications⟩ config within inside depth new op s)) s)
    (htells : ∀ head ∈ op.heads, Tells found head) (h : Foreseen found new s) :
    Ensures (visit ⟨simplifications⟩ config within depth op) s (fun out s' =>
        (∀ head ∈ headsOfAll out, Stays found head) ∧ Foreseen found (visibleAfter new out) s'
          ∧ (config.topDown = false → ∀ head ∈ op.heads, ¬ Stuck found head))
      fun error _ => Strands σ found op.heads error := by
  rw [visit_eq]
  apply (Greedy.ensures_substitute hentry _).bind
  rintro op₁ s hreturns₁ ⟨rfl, hsubstituted⟩
  obtain ⟨f, hf, hheads⟩ := h.exists_mapOperands (returns_substitute hreturns₁).2
  rw [visitEncounters_eq, afterwards_of_returns hreturns₁, Foretells.append] at hforetells
  rw [visitEncounters_eq, afterwards_of_returns hreturns₁, drawnIn_append] at hsubstituted
  have hheight₁ : op₁.height ≤ levels := hsubstituted.height ▸ hheight
  have htells₁ : ∀ head ∈ op₁.heads, Tells found head := by
    rw [hheads]
    exact List.forall_mem_map.2 fun head hhead => (htells head hhead).mapOperands hf
  rw [heads_eq op₁, List.forall_mem_cons] at htells₁
  have hstrands {heads' : List Head} (hsub : heads' ⊆ op₁.heads) (error : Error)
      (hstrands : Strands σ found heads' error) : Strands σ found op.heads error :=
    Strands.of_mapOperands hf (hheads ▸ hstrands.mono hsub)
  have hwalked := hwalks.ensures_ite (!config.topDown) (fun _ => hheight₁)
    (sound_simplifications (List.Subset.refl _) _) hsubstituted.entry.fewer
  have hfirst := hwithin.ensures_first hheight₁ hforetells.1 hsubstituted.entry.fewer htells₁.2 h
  have hboth := (hwalked.and hfirst).weaken fun error _ hfails =>
    hstrands (heads_eq op₁ ▸ List.subset_cons_self _ _) error hfails.2
  refine hboth.bind fun op₂ s₂ hreturns₂
    ⟨⟨_, hexit₂⟩, hhead₂, h₂, htells₂, hsame, hdone, hstuck₂⟩ => ?_
  have hagain := hexit₂.again hsubstituted.entry
  rw [afterwards_of_returns hreturns₂] at hagain hforetells
  have hsub₂ : config.topDown = true → op₂.height ≤ levels :=
    fun htopDown => hsame htopDown ▸ hheight₁
  have hheads₂ : ∀ head ∈ op₂.heads, Tells found head := by
    rw [heads_eq, List.forall_mem_cons, hhead₂]
    exact ⟨htells₁.1, htells₂⟩
  have hmatch := ensures_match_cleared hlimit hwithin depth hsub₂ hforetells.2 hagain hheads₂
    (fun htopDown => (hdone htopDown).1) h₂
  apply (hmatch.weaken ?_).mono
  · rintro out s' _ ⟨hstays, h', hown⟩
    refine ⟨hstays, h', fun htopDown head hhead hstuck => ?_⟩
    have hmapped : head.mapOperands f ∈ op₁.heads := hheads ▸ List.mem_map_of_mem hhead
    rw [heads_eq, List.mem_cons, ← hhead₂] at hmapped
    rw [← stuck_mapOperands_iff hf] at hstuck
    rcases hmapped with hsame | hnested
    · exact hown (hsame ▸ hstuck)
    · exact (hdone htopDown).2 _ hnested hstuck
  · rintro error _ ⟨head, hhead, hstuck, hrefuses⟩
    exact hstrands (List.Subset.refl _) error
      ⟨head, hstuck₂ head hhead hstuck, hstuck, hrefuses⟩

theorem ensures_visitAll_cleared (hwalks : WalksInto ⟨simplifications⟩ config levels within inside)
    (hwithin : ClearsWithin found config levels within inside) (depth : Nat)
    (hheight : ∀ op ∈ ops, op.height ≤ levels)
    (hforetells : Foretells found config
      (visitAllEncounters ⟨simplifications⟩ config within inside depth new ops s))
    (hentry : Entry old new ops
      (drawnIn ⟨simplifications⟩ config
        (visitAllEncounters ⟨simplifications⟩ config within inside depth new ops s)) s)
    (htells : ∀ head ∈ headsOfAll ops, Tells found head) (h : Foreseen found new s) :
    Ensures (visitAll ⟨simplifications⟩ config within depth ops) s (fun out s' =>
        (∀ head ∈ headsOfAll out, Stays found head) ∧ Foreseen found (visibleAfter new out) s'
          ∧ (config.topDown = false → ∀ head ∈ headsOfAll ops, ¬ Stuck found head))
      fun error _ => Strands σ found (headsOfAll ops) error := by
  induction ops generalizing old new s with
  | nil => exact ⟨List.forall_mem_nil _, h, fun _ => List.forall_mem_nil _⟩
  | cons op ops ih =>
      rw [visitAllEncounters, drawnIn_append] at hentry
      rw [visitAllEncounters, Foretells.append] at hforetells
      rw [headsOfAll, List.forall_mem_append] at htells
      rw [List.forall_mem_cons] at hheight
      have hsplit : Entry old new ([op] ++ ops) _ s := hentry
      have hscoped := Greedy.ensures_visit hwalks depth hheight.1
        (sound_simplifications (List.Subset.refl _) _) hsplit.left
      have hfirst := ensures_visit_cleared hlimit hwalks hwithin depth hheight.1 hforetells.1
        hsplit.left htells.1 h
      apply ((hscoped.and hfirst).weaken fun _ _ hfails =>
        hfails.2.mono (List.subset_append_left _ _)).bind
      rintro first s₁ hreturns ⟨hexit, hstays, h₁, hfree⟩
      rw [afterwards_of_returns hreturns] at hforetells hsplit
      have hrest := ih hheight.2 hforetells.2 (hsplit.right hexit) htells.2 h₁
      apply (hrest.weaken fun _ _ hfails => hfails.mono (List.subset_append_right _ _)).bind
      rintro rest s₂ _ ⟨hstays', h₂, hfree'⟩
      rw [Ensures.pure_iff, visibleAfter_append, headsOfAll_append, headsOfAll]
      exact ⟨List.forall_mem_append.2 ⟨hstays, hstays'⟩, h₂, fun htopDown =>
        List.forall_mem_append.2 ⟨hfree htopDown, hfree' htopDown⟩⟩

theorem clearsWithin_visitRegion (levels depth : Nat) : ClearsWithin found config levels
    (visitRegion (σ := σ) ⟨simplifications⟩ config levels depth)
    (regionEncounters ⟨simplifications⟩ config levels depth) := by
  induction levels generalizing depth with
  | zero =>
      intro new op s hheight
      have hpos := op.height_pos
      omega
  | succ levels ih =>
      rintro new ⟨head, _ | ops⟩ s hheight hforetells hentry htells h
      · unfold visitRegion
        exact ⟨rfl, List.forall_mem_nil _, h, fun _ => List.forall_mem_nil _⟩
      · unfold visitRegion
        have hbelow : heightOfAll ops ≤ levels := Nat.le_of_succ_le_succ hheight
        apply (ensures_visitAll_cleared hlimit (walksInto_visitRegion _ config levels (depth + 1))
          (ih (depth + 1)) depth
          (fun op hop => Nat.le_trans (height_le_heightOfAll hop) hbelow) hforetells hentry
            htells h).bind
        rintro out s' _ ⟨hstays, h', hfree⟩
        refine ⟨rfl, hstays, h'.mono fun name hname => ?_, hfree⟩
        exact mem_visibleAfter.2 (.inr hname)

/-- **What is found comes true in a sweep.** It leaves nothing that could be simplified; or it fails
on what is stuck. -/
theorem ensures_sweep_cleared {root : Operation}
    (hforetells : Foretells found config (sweepEncounters ⟨simplifications⟩ config root s))
    (hbetween : Between root
      (drawnIn ⟨simplifications⟩ config (sweepEncounters ⟨simplifications⟩ config root s)) s)
    (htells : ∀ head ∈ headsOfAll root.nested, Tells found head) :
    Ensures (sweep ⟨simplifications⟩ config root) s
      (fun swept _ => (∀ head ∈ headsOfAll swept.nested, Stays found head)
        ∧ (config.topDown = false → ∀ head ∈ headsOfAll root.nested, ¬ Stuck found head))
      fun error _ => Strands σ found (headsOfAll root.nested) error := by
  rw [sweep_eq, Ensures.modify_bind_iff]
  have hagrees : s.Agrees { s with definitions := .empty } := ⟨rfl, rfl⟩
  have hentry := hbetween.entry.congr hagrees
  have hforeseen : Foreseen found [] { s with definitions := .empty } := by
    refine ⟨nofun, fun name op hget => ?_, fun name value hget => ?_, hbetween.erased⟩
    · rw [Dict.get?_empty] at hget
      cases hget
    · dsimp only at hget
      rw [hbetween.replaced, Dict.get?_empty] at hget
      cases hget
  have hwalked := walksInto_visitRegion ⟨simplifications⟩ config (root.height + spareLevels) 0 []
    root { s with definitions := .empty }
    (Nat.le_add_right _ _) (sound_simplifications (List.Subset.refl _) _) hentry.nested
  have hcleared := clearsWithin_visitRegion hlimit (root.height + spareLevels) 0 [] root
    { s with definitions := .empty }
    (Nat.le_add_right _ _) hforetells hentry.nested htells hforeseen
  apply ((hwalked.and hcleared).weaken fun _ _ hfails => hfails.2).bind
  rintro root' s' _ ⟨⟨hhead, hexit⟩, _, hstays, hforeseen', hfree⟩
  -- What is left of replaced results is nowhere in use, so that the end of the sweep changes
  -- nothing.
  have hunused : headsOfAll (s'.replaced.applyTo root').nested = headsOfAll root'.nested :=
    Replacements.heads_nested_applyTo fun head hhead operand => hexit.get?_of_operand hhead
  have hnode := Exit.node hentry hhead hexit
  rw [← List.append_nil (drawnIn _ _ _)] at hentry
  apply (ensures_finish_of_unerased (hnode.again hentry) hforeseen'.erased _).mono
  rintro swept s'' hreturns -
  refine ⟨?_, hfree⟩
  rcases (returns_finish hreturns).1 with rfl | rfl
  · exact hstays
  · rw [hunused]
    exact hstays

end

/-- What is found of the operands in a tree does not depend on operations that define other
names. -/
theorem map_findings_append {root : Operation} {more : List Head} (hroot : root.Scoped [])
    (hapart : ∀ name ∈ root.definedNames, name ∉ more.flatMap Head.resultNames) {head : Head}
    (hhead : head ∈ root.heads) :
    head.operands.map (Finding.of (findings (root.heads ++ more)))
      = head.operands.map (Finding.of (findings root.heads)) := by
  refine List.map_congr_left fun operand hoperand => ?_
  have hmem : operand ∈ root.allOperands := List.mem_flatMap.2 ⟨head, hhead, hoperand⟩
  have hname := (hroot.mem_of_operand operand hmem).resolve_left List.not_mem_nil
  have hdefined : operand.name ∈ root.definedNames := by
    rw [definedNames_eq]
    exact List.mem_append_right _ hname
  unfold Finding.of
  rw [findings_append_of_not_mem (hapart operand.name hdefined)]

theorem stuck_congr {found' : String → Option Finding}
    (h : head.operands.map (Finding.of found) = head.operands.map (Finding.of found')) :
    Stuck found head ↔ Stuck found' head := by
  unfold Stuck
  rw [reduct?_congr h]

/-- **What a sweep comes to is found in the tree** that it starts from. It leaves nothing that could
be simplified; if what operations hold is visited first, nothing was stuck. It fails on what is
stuck. -/
theorem ensures_sweep_foretold {root : Operation} (hlimit : config.maxRewrites = none)
    (hbetween : Between root
      (drawnIn ⟨simplifications⟩ config (sweepEncounters ⟨simplifications⟩ config root s)) s) :
    Ensures (sweep ⟨simplifications⟩ config root) s
      (fun swept _ => (∃ found, ∀ head ∈ headsOfAll swept.nested, Stays found head)
        ∧ (config.topDown = false → ∀ head ∈ headsOfAll root.nested,
          ¬ Stuck (findings root.heads) head))
      fun error _ => Strands σ (findings root.heads) (headsOfAll root.nested) error := by
  have hpatterns : (FrozenPatterns.mk (simplifications (σ := σ))).patterns ⊆ simplifications :=
    List.Subset.refl _
  generalize hencounters : sweepEncounters ⟨simplifications⟩ config root s = encounters at hbetween
  have htells := tells_findings (ordered_append_insertedIn hpatterns hbetween.uses encounters)
    (apart_append_insertedIn hpatterns hbetween.nodup)
  have hforetells : Foretells _ config encounters := fun e he m hmatch new hnew =>
    htells new.toHead (List.mem_append_right _ (toHead_mem_insertedIn he hmatch hnew))
  have hsub : headsOfAll root.nested ⊆ root.heads :=
    fun head hhead => heads_eq root ▸ List.mem_cons_of_mem _ hhead
  have hfound {head : Head} (hhead : head ∈ headsOfAll root.nested) :=
    map_findings_append hbetween.uses
    (fun name hname hmem => (List.nodup_append.1 hbetween.nodup).2.2 name hname name
      (resultNames_insertedIn hpatterns encounters ▸ hmem) rfl) (hsub hhead)
  subst hencounters
  have hcleared := ensures_sweep_cleared hlimit hforetells hbetween fun head hhead =>
    htells head (List.mem_append_left _ (hsub hhead))
  apply (hcleared.weaken ?_).mono
  · rintro swept _ _ ⟨hstays, hfree⟩
    exact ⟨⟨_, hstays⟩, fun htopDown head hhead =>
      mt (stuck_congr (hfound hhead)).2 (hfree htopDown head hhead)⟩
  · rintro error _ ⟨head, hhead, hstuck, definitions, operands, hseen, hrefuses⟩
    exact ⟨head, hhead, (stuck_congr (hfound hhead)).1 hstuck, definitions, operands,
      hseen.trans (hfound hhead), hrefuses⟩

end Arith

end DialectIR
