import DialectIR.Proofs.Accepted
import DialectIR.Proofs.Spelling

/-! How much a module can hold: every operation and every result has a token of its own in the
text. -/

namespace DialectIR

namespace Parse

open Token Operation

variable {before between after : State} {count more steps : Nat} {kind : Kind} {token : Token}

/-- So many tokens were taken at least, and not the one that ends the text. -/
structure Shortens (count : Nat) (before after : State) : Prop where
  ended : ∃ last ∈ after.tokens.getLast?, last.kind = .eof
  fewer : after.tokens.length + count ≤ before.tokens.length

namespace Shortens

theorem refl (hbefore : ∃ last ∈ before.tokens.getLast?, last.kind = .eof) :
    Shortens 0 before before :=
  ⟨hbefore, Nat.le_refl _⟩

theorem weaken (h : Shortens count before after) (hle : more ≤ count) :
    Shortens more before after :=
  ⟨h.ended, Nat.le_trans (Nat.add_le_add_left hle _) h.fewer⟩

/-- What readers do to scopes, definitions and the context takes no token. -/
theorem of_tokens (h : Shortens count before between) (htokens : after.tokens = between.tokens) :
    Shortens count before after :=
  ⟨htokens ▸ h.ended, htokens ▸ h.fewer⟩

end Shortens

/-- Behind a token that does not end the source there is a further one. -/
theorem exists_later {s : State} (hended : ∃ last ∈ s.tokens.getLast?, last.kind = .eof)
    (hkind : s.here.kind ≠ .eof) :
    ∃ token later, s.later = token :: later := by
  cases hlater : s.later with
  | nil =>
      rw [State.tokens, hlater] at hended
      obtain ⟨_, ⟨⟩, heof⟩ := hended
      exact absurd heof hkind
  | cons token later => exact ⟨token, later, rfl⟩

theorem shortens_advance_of_ne (h : Shortens count before between)
    (hkind : between.here.kind ≠ .eof) :
    Shortens (count + 1) before between.advance := by
  obtain ⟨next, later, hlater⟩ := exists_later h.ended hkind
  have htokens : between.tokens = between.here :: next :: later := by rw [State.tokens, hlater]
  obtain ⟨last, hlast, heof⟩ := h.ended
  have hfewer := h.fewer
  rw [htokens, List.getLast?_cons_cons] at hlast
  rw [htokens, List.length_cons] at hfewer
  rw [State.advance_eq between next later hlater hkind]
  refine ⟨⟨last, hlast, heof⟩, ?_⟩
  show (next :: later).length + (count + 1) ≤ before.tokens.length
  omega

theorem shortens_advance (between : State) (h : Shortens count before between) :
    Shortens count before between.advance := by
  by_cases hkind : between.here.kind = .eof
  · rw [State.advance, if_pos hkind]
    exact h
  · exact (shortens_advance_of_ne h hkind).weaken (Nat.le_succ count)

theorem shortens_expect (h : Shortens count before between) (hkind : kind ≠ .eof)
    (hreturns : Returns (expect kind) between token after) :
    Shortens (count + 1) before after := by
  obtain ⟨hhere, -, rfl⟩ := returns_expect.1 hreturns
  exact shortens_advance_of_ne h (hhere ▸ hkind)

theorem shortens_of_returns_resultTokens {tokens : List Token} (h : Shortens count before between)
    (hreturns : Returns (resultTokens steps) between tokens after) :
    Shortens (count + tokens.length) before after := by
  unfold resultTokens at hreturns
  rw [returns_isNext_bind] at hreturns
  split at hreturns
  · obtain ⟨found, s, hlist, hreturns⟩ := Returns.bind_iff.1 hreturns
    obtain ⟨_, s', hequal, hreturns⟩ := Returns.bind_iff.1 hreturns
    obtain ⟨rfl, rfl⟩ := Returns.pure_iff.1 hreturns
    have hread : Shortens (count + tokens.length) before s := by
      refine commaSeparated_induction
        (fun (found : List Token) s => Shortens (count + found.length) before s)
        (fun found s _ _ hread hitem => ?_) (fun _ s hread => shortens_advance s hread) hlist h
      obtain ⟨token, s', hexpect, hitem⟩ := Returns.bind_iff.1 hitem
      obtain ⟨rfl, rfl⟩ := Returns.pure_iff.1 hitem
      rw [List.length_append]
      exact shortens_expect hread (by decide) hexpect
    exact (shortens_expect hread (by decide) hequal).weaken (Nat.le_succ _)
  · obtain ⟨rfl, rfl⟩ := Returns.pure_iff.1 hreturns
    exact h

theorem shortens_of_returns_defineAll {pairs : List (Token × Ty)} {results : List Value}
    (h : Shortens count before between)
    (hreturns : Returns (defineAll pairs) between results after) :
    results.length = pairs.length ∧ Shortens count before after := by
  induction pairs generalizing between results with
  | nil =>
      obtain ⟨rfl, rfl⟩ := Returns.pure_iff.1 hreturns
      exact ⟨rfl, h⟩
  | cons pair pairs ih =>
      obtain ⟨token, ty⟩ := pair
      unfold defineAll at hreturns
      obtain ⟨value, s, hvalue, hreturns⟩ := Returns.bind_iff.1 hreturns
      obtain ⟨rest, s', hrest, hreturns⟩ := Returns.bind_iff.1 hreturns
      obtain ⟨rfl, rfl⟩ := Returns.pure_iff.1 hreturns
      unfold define at hvalue
      rw [Returns.get_bind_iff] at hvalue
      split at hvalue
      · exact absurd hvalue returns_fault
      · rw [Returns.modify_bind_iff] at hvalue
        obtain ⟨-, rfl⟩ := Returns.pure_iff.1 hvalue
        have hdefine : Shortens count before (between.define (unmarked token.lexeme) ty) :=
          h.of_tokens rfl
        obtain ⟨hlength, hshortens⟩ := ih hdefine hrest
        exact ⟨congrArg (· + 1) hlength, hshortens⟩

/-- The number of the operations in a list and of their results. -/
def extent (ops : List Operation) : Nat := (headsOfAll ops).length + (definedNamesOfAll ops).length

theorem extent_cons (op : Operation) (ops : List Operation) :
    extent (op :: ops) = op.results.length + 1 + extent op.nested + extent ops := by
  unfold extent
  rw [headsOfAll, definedNamesOfAll_cons, heads_eq, definedNames_eq, Head.resultNames]
  simp only [List.length_append, List.length_cons, List.length_map]
  omega

section

variable {operation : Reader Operation}
  (hoperation : ∀ count before between op after, Shortens count before between →
    Returns operation between op after → Shortens (count + extent [op]) before after)

include hoperation

theorem shortens_of_returns_operationsUntil {close : Kind} {ops : List Operation}
    (h : Shortens count before between)
    (hreturns : Returns (operationsUntil close operation steps) between ops after) :
    Shortens (count + extent ops) before after := by
  induction steps generalizing count between ops with
  | zero =>
      rw [operationsUntil] at hreturns
      simp at hreturns
  | succ steps ih =>
      rw [operationsUntil, returns_isNext_bind] at hreturns
      split at hreturns
      · obtain ⟨rfl, rfl⟩ := Returns.pure_iff.1 hreturns
        exact h
      · obtain ⟨op, s, hop, hreturns⟩ := Returns.bind_iff.1 hreturns
        obtain ⟨rest, s', hrest, hreturns⟩ := Returns.bind_iff.1 hreturns
        obtain ⟨rfl, rfl⟩ := Returns.pure_iff.1 hreturns
        refine (ih (hoperation _ _ _ _ _ h hop) hrest).weaken ?_
        rw [extent_cons, extent_cons op []]
        exact (Nat.add_assoc _ _ _).ge

theorem shortens_of_returns_region? {ops? : Option (List Operation)}
    (h : Shortens count before between)
    (hreturns : Returns (region? operation steps) between ops? after) :
    Shortens (count + extent (ops?.getD [])) before after := by
  unfold region? at hreturns
  rw [returns_isNext_bind] at hreturns
  split at hreturns
  · obtain ⟨ops, hregion, rfl⟩ := Returns.map_iff.1 hreturns
    unfold region at hregion
    obtain ⟨_, s1, hopen, hregion⟩ := Returns.bind_iff.1 hregion
    rw [Returns.modify_bind_iff] at hregion
    obtain ⟨_, s2, hops, hregion⟩ := Returns.bind_iff.1 hregion
    obtain ⟨_, s3, hclose, hregion⟩ := Returns.bind_iff.1 hregion
    rw [Returns.modify_bind_iff] at hregion
    obtain ⟨rfl, rfl⟩ := Returns.pure_iff.1 hregion
    have hopened := (shortens_expect h (by decide) hopen).weaken (Nat.le_succ _)
    have hentered : Shortens count before { s1 with scopes := .empty :: s1.scopes } :=
      hopened.of_tokens rfl
    have hread := shortens_of_returns_operationsUntil hoperation hentered hops
    exact ((shortens_expect hread (by decide) hclose).weaken (Nat.le_succ _)).of_tokens rfl
  · obtain ⟨rfl, rfl⟩ := Returns.pure_iff.1 hreturns
    exact h

end

theorem shortens_of_returns_operation {op : Operation} (h : Shortens count before between)
    (hreturns : Returns (operation steps) between op after) :
    Shortens (count + extent [op]) before after := by
  induction steps generalizing count before between op after with
  | zero =>
      rw [operation] at hreturns
      simp at hreturns
  | succ steps ih =>
      rw [operation] at hreturns
      obtain ⟨tokens, s1, htokens, hreturns⟩ := Returns.bind_iff.1 hreturns
      obtain ⟨nameToken, s2, hname, hreturns⟩ := Returns.bind_iff.1 hreturns
      obtain ⟨_, s3, hcheck, hreturns⟩ := Returns.bind_iff.1 hreturns
      obtain ⟨values, s4, hvalues, hreturns⟩ := Returns.bind_iff.1 hreturns
      obtain ⟨entries, s5, hentries, hreturns⟩ := Returns.bind_iff.1 hreturns
      obtain ⟨types, s6, htypes, hreturns⟩ := Returns.bind_iff.1 hreturns
      obtain ⟨_, s7, hcount, hreturns⟩ := Returns.bind_iff.1 hreturns
      obtain ⟨region, s8, hregion, hreturns⟩ := Returns.bind_iff.1 hreturns
      obtain ⟨results, s9, hresults, hreturns⟩ := Returns.bind_iff.1 hreturns
      obtain ⟨rfl, rfl⟩ := Returns.pure_iff.1 hreturns
      have h1 := shortens_of_returns_resultTokens h htokens
      have h2 := shortens_expect h1 (by decide) hname
      obtain ⟨-, rfl⟩ := returns_checkName.1 hcheck
      have h3 : Shortens (count + tokens.length + 1) before
          { s2 with context := s2.context.load (operationName nameToken.lexeme).dialect } :=
            h2.of_tokens rfl
      have h4 := (maintains_operands shortens_advance _ _).of_returns h3 hvalues
      have h5 := (maintains_attributes? shortens_advance _).of_returns h4 hentries
      have h6 := (maintains_resultTypes shortens_advance _).of_returns h5 htypes
      obtain ⟨hlength, rfl⟩ := returns_checkCount.1 hcount
      have h8 := shortens_of_returns_region? (fun _ _ _ _ _ h hop => ih h hop) h6 hregion
      obtain ⟨hcounted, h9⟩ := shortens_of_returns_defineAll h8 hresults
      rw [List.length_zip, hlength, Nat.min_self] at hcounted
      refine h9.weaken ?_
      rw [extent_cons, hcounted]
      show count + (tokens.length + 1 + extent (region.getD []) + 0) ≤ _
      omega

/-- **There are no more operations and results than characters** in a text. -/
theorem extent_le_of_topLevel {characters : Nat} {tokens : List Token} {context after : Context}
    {ops : List Operation} (hscanned : Scanned characters tokens)
    (h : topLevel tokens context = (.ok ops, after)) : extent ops ≤ characters := by
  obtain ⟨here, later, s, rfl, hreturns, -⟩ := returns_of_topLevel h
  have hstart : Shortens 0 { here, later, context } { here, later, context } := .refl hscanned.ended
  have hread := shortens_of_returns_operationsUntil
    (fun _ _ _ _ _ h hop => shortens_of_returns_operation h hop) hstart hreturns
  -- the token that ends the text is never taken
  have hfewer : s.tokens.length + _ ≤ (here :: later).length := hread.fewer
  have hpos : 1 ≤ s.tokens.length := Nat.succ_pos _
  have hlength := hscanned.length
  omega

end Parse

end DialectIR
