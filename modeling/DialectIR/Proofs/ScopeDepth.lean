import DialectIR.Proofs.Accepted

/-! The scopes that are open. An operation puts one scope for its region and takes it away again, so
that behind every operation there are as many as before. -/

namespace DialectIR.Parse

variable {α β : Type}

/-- If the reader gives a result, then it leaves as many scopes as there were. -/
def KeepsDepth (reader : Reader α) : Prop :=
  ∀ ⦃s a s'⦄, Returns reader s a s' → s'.scopes.length = s.scopes.length

namespace KeepsDepth

variable {reader : Reader α} {next : α → Reader β}

theorem pure (a : α) : KeepsDepth (pure a) := by
  intro s _ s' hreturns
  rw [(Returns.pure_iff.1 hreturns).2]

theorem fault (location : Location) (reason : SyntaxFault) :
    KeepsDepth (Parse.fault location reason : Reader α) :=
  fun _ _ _ hreturns => absurd hreturns returns_fault

theorem bind (h : KeepsDepth reader) (hnext : ∀ a, KeepsDepth (next a)) :
    KeepsDepth (reader >>= next) := by
  intro s b s' hreturns
  obtain ⟨a, between, hfirst, hrest⟩ := Returns.bind_iff.1 hreturns
  exact (hnext a hrest).trans (h hfirst)

theorem ite {condition : Prop} [Decidable condition] {reader' : Reader α} (hyes : KeepsDepth reader)
    (hno : KeepsDepth reader') :
    KeepsDepth (if condition then reader else reader') := by
  split
  · exact hyes
  · exact hno

/-- Readers that only take tokens do nothing to scopes. -/
theorem of_maintains (h : ∀ {P : State → Prop}, (∀ s, P s → P s.advance) → Maintains P reader) :
    KeepsDepth reader := by
  intro s a s' hreturns
  refine (@h (fun other => other.scopes.length = s.scopes.length) fun other hother => ?_).of_returns
    rfl hreturns
  rw [other.advance_scopes]
  exact hother

end KeepsDepth

theorem keepsDepth_checkName (name : OpName) (token : Token) :
    KeepsDepth (checkName name token) := by
  intro s _ s' hreturns
  rw [(returns_checkName.1 hreturns).2]

theorem keepsDepth_checkCount (token : Token) (results types : Nat) :
    KeepsDepth (checkCount token results types) :=
  .ite (.pure _) (.fault _ _)

theorem keepsDepth_define (token : Token) (ty : Ty) : KeepsDepth (define token ty) := by
  intro s value s' hreturns
  unfold define at hreturns
  rw [Returns.get_bind_iff] at hreturns
  split at hreturns
  · exact absurd hreturns returns_fault
  · rw [Returns.modify_bind_iff] at hreturns
    rw [(Returns.pure_iff.1 hreturns).2, State.define]
    cases s.scopes <;> rfl

theorem keepsDepth_defineAll (pairs : List (Token × Ty)) : KeepsDepth (defineAll pairs) := by
  induction pairs with
  | nil => exact .pure []
  | cons pair pairs ih =>
      exact (keepsDepth_define pair.1 pair.2).bind fun value => ih.bind fun values => .pure _

theorem keepsDepth_operationsUntil {reader : Reader Operation} (h : KeepsDepth reader)
    (close : Token.Kind) (steps : Nat) :
    KeepsDepth (operationsUntil close reader steps) := by
  induction steps with
  | zero => exact fun _ _ _ hreturns => absurd hreturns (by simp [operationsUntil])
  | succ steps ih =>
      have hnext : KeepsDepth (isNext close) := .of_maintains fun _ => maintains_isNext close
      exact hnext.bind fun found => .ite (.pure []) (h.bind fun op => ih.bind fun ops => .pure _)

/-- A region takes away the scope that it has put. -/
theorem keepsDepth_region {reader : Reader Operation} (h : KeepsDepth reader) (steps : Nat) :
    KeepsDepth (region reader steps) := by
  have hexpect (kind : Token.Kind) : KeepsDepth (expect kind) :=
    .of_maintains fun hadvance => maintains_expect hadvance kind
  intro s ops s' hreturns
  obtain ⟨_, s1, hopen, hreturns⟩ := Returns.bind_iff.1 hreturns
  rw [Returns.modify_bind_iff] at hreturns
  obtain ⟨ops', s2, hops, hreturns⟩ := Returns.bind_iff.1 hreturns
  obtain ⟨_, s3, hclose, hreturns⟩ := Returns.bind_iff.1 hreturns
  rw [Returns.modify_bind_iff] at hreturns
  obtain ⟨rfl, rfl⟩ := Returns.pure_iff.1 hreturns
  have hinner := (hexpect _ hclose).trans (keepsDepth_operationsUntil h .rbrace steps hops)
  rw [List.length_tail, hinner, List.length_cons, hexpect _ hopen]
  rfl

theorem keepsDepth_operation (steps : Nat) : KeepsDepth (operation steps) := by
  induction steps with
  | zero => exact fun _ _ _ hreturns => absurd hreturns (by simp [operation])
  | succ steps ih =>
      have hregion : KeepsDepth (region? (operation steps) (steps + 1)) := by
        have hnext : KeepsDepth (isNext .lbrace) := .of_maintains fun _ => maintains_isNext .lbrace
        refine hnext.bind fun found => .ite ?_ (.pure none)
        rw [map_eq_pure_bind]
        exact (keepsDepth_region ih (steps + 1)).bind fun ops => .pure _
      rw [operation]
      refine (KeepsDepth.of_maintains fun hadvance => maintains_resultTokens hadvance _).bind
        fun results => ?_
      refine (KeepsDepth.of_maintains fun hadvance => maintains_expect hadvance _).bind
        fun nameToken => ?_
      refine (keepsDepth_checkName _ _).bind fun _ => ?_
      refine (KeepsDepth.of_maintains fun hadvance => maintains_operands hadvance _ _).bind
        fun values => ?_
      refine (KeepsDepth.of_maintains fun hadvance => maintains_attributes? hadvance _).bind
        fun entries => ?_
      refine (KeepsDepth.of_maintains fun hadvance => maintains_resultTypes hadvance _).bind
        fun types => ?_
      refine (keepsDepth_checkCount _ _ _).bind fun _ => hregion.bind fun region => ?_
      exact (keepsDepth_defineAll _).bind fun values => .pure _

end DialectIR.Parse
