import DialectIR.Proofs.PostOrder

/-! The course of a sweep in either order. What an operation holds is visited before the operation
is offered to the patterns, or behind that, if the operation stays. A sweep that returns is a walk:
the operations that it meets are offered one after the other, and each finds the state that the one
before has left. -/

namespace DialectIR.Greedy

open Operation

variable {σ : Type}

namespace Offer

/-- The changes of the match, none if there was no match. -/
def changes (offer : Offer σ) : Recording := offer.recording?.getD {}

/-- The state behind the match: what was inserted is known, and results have been replaced or
erased. -/
def committed (offer : Offer σ) : State σ :=
  (offer.changes.inserted.foldl State.register offer.after).act offer.op.results
    offer.changes.action

end Offer

mutual

/-- Visits of the operations in a list. What comes of each stands in its place: what was inserted,
and behind it the operation if it stays. All offers are listed. -/
inductive WalkedAll (patterns : FrozenPatterns σ) (config : Config) :
    Nat → List Operation → State σ → List (Offer σ) → List Operation → State σ → Prop where
  | nil (depth : Nat) (s : State σ) : WalkedAll patterns config depth [] s [] [] s
  | gone {depth : Nat} {op : Operation} {ops out : List Operation} {s s' : State σ}
      {offer : Offer σ} {inner later : List (Offer σ)} (hdepth : offer.depth = depth)
      (hinner : WalkedWithin patterns config (!config.topDown) (depth + 1) (s.replaced.applyTo op) s inner
        offer.op offer.before)
      (hoffer : Returns (applyPatterns patterns config depth offer.op) offer.before
        offer.recording? offer.after)
      (hgone : stays? offer.op offer.changes = none)
      (hlater : WalkedAll patterns config depth ops offer.committed later out s') :
      WalkedAll patterns config depth (op :: ops) s (inner ++ offer :: later)
        (offer.changes.inserted ++ out) s'
  | stays {depth : Nat} {op kept kept' : Operation} {ops out : List Operation}
      {s between s' : State σ} {offer : Offer σ} {inner inside later : List (Offer σ)}
      (hdepth : offer.depth = depth)
      (hinner : WalkedWithin patterns config (!config.topDown) (depth + 1) (s.replaced.applyTo op) s inner
        offer.op offer.before)
      (hoffer : Returns (applyPatterns patterns config depth offer.op) offer.before
        offer.recording? offer.after)
      (hstays : stays? offer.op offer.changes = some kept)
      (hinside : WalkedWithin patterns config config.topDown (depth + 1) kept offer.committed inside
        kept' between)
      (hlater : WalkedAll patterns config depth ops (between.register kept') later out s') :
      WalkedAll patterns config depth (op :: ops) s (inner ++ offer :: (inside ++ later))
        (offer.changes.inserted ++ kept' :: out) s'

/-- A visit of what an operation holds, if it is time for that. -/
inductive WalkedWithin (patterns : FrozenPatterns σ) (config : Config) :
    Bool → Nat → Operation → State σ → List (Offer σ) → Operation → State σ → Prop where
  | skip (depth : Nat) (op : Operation) (s : State σ) : WalkedWithin patterns config false
      depth op s [] op s
  | leaf (depth : Nat) (head : Head) (s : State σ) :
      WalkedWithin patterns config true depth ⟨head, none⟩ s [] ⟨head, none⟩ s
  | region {depth : Nat} {head : Head} {ops out : List Operation} {s s' : State σ}
      {offers : List (Offer σ)} (hops : WalkedAll patterns config depth ops s offers out s') :
      WalkedWithin patterns config true depth ⟨head, some ops⟩ s offers ⟨head, some out⟩ s'

end

variable {patterns : FrozenPatterns σ} {config : Config} {depth : Nat}
  {op op' root root' : Operation}
  {ops out : List Operation} {s s' : State σ} {offers : List (Offer σ)}

mutual

/-- What holds wherever patterns have been tried holds of all offers. -/
theorem WalkedAll.forall_offers {P : Offer σ → Prop} (hP : ∀ offer : Offer σ, Returns
      (applyPatterns patterns config offer.depth offer.op) offer.before offer.recording?
        offer.after → P offer)
    {depth : Nat} {ops out : List Operation} {s s' : State σ} {offers : List (Offer σ)} :
    WalkedAll patterns config depth ops s offers out s' → ∀ offer ∈ offers, P offer
  | .nil _ _ => nofun
  | .gone rfl hinner hoffer _ hlater =>
      List.forall_mem_append.2 ⟨hinner.forall_offers hP,
        List.forall_mem_cons.2 ⟨hP _ hoffer, hlater.forall_offers hP⟩⟩
  | .stays rfl hinner hoffer _ hinside hlater =>
      List.forall_mem_append.2 ⟨hinner.forall_offers hP, List.forall_mem_cons.2 ⟨hP _ hoffer,
        List.forall_mem_append.2 ⟨hinside.forall_offers hP, hlater.forall_offers hP⟩⟩⟩

theorem WalkedWithin.forall_offers {P : Offer σ → Prop} (hP : ∀ offer : Offer σ, Returns
      (applyPatterns patterns config offer.depth offer.op) offer.before offer.recording?
        offer.after → P offer)
    {now : Bool} {depth : Nat} {op op' : Operation} {s s' : State σ} {offers : List (Offer σ)} :
    WalkedWithin patterns config now depth op s offers op' s' → ∀ offer ∈ offers, P offer
  | .skip _ _ _ => nofun
  | .leaf _ _ _ => nofun
  | .region hops => hops.forall_offers hP

end

/-- Visits of what an operation holds are walks. -/
def WalksWithin (patterns : FrozenPatterns σ) (config : Config) (depth : Nat)
    (within : Operation → Step σ Operation) : Prop :=
  ∀ op s op' s', Returns (within op) s op' s' → ∃ offers,
    WalkedWithin patterns config true depth op s offers op' s'

theorem WalksWithin.exists_walked {within : Operation → Step σ Operation}
    (hwithin : WalksWithin patterns config depth within) (now : Bool)
    (h : Returns (if now then within op else pure op) s op' s') :
    ∃ offers, WalkedWithin patterns config now depth op s offers op' s' := by
  cases now with
  | true => exact hwithin op s op' s' h
  | false =>
      obtain ⟨rfl, rfl⟩ := Returns.pure_iff.1 h
      exact ⟨[], .skip depth op' s'⟩

theorem exists_walkedAll {within : Operation → Step σ Operation}
    (hwithin : WalksWithin patterns config (depth + 1) within)
    (h : Returns (visitAll patterns config within depth ops) s out s') :
    ∃ offers, WalkedAll patterns config depth ops s offers out s' := by
  induction ops generalizing s out with
  | nil =>
      obtain ⟨rfl, rfl⟩ := Returns.pure_iff.1 h
      exact ⟨[], .nil depth s'⟩
  | cons op ops ih =>
      unfold visitAll at h
      rw [visit_eq] at h
      obtain ⟨first, s₁, hvisit, h⟩ := Returns.bind_iff.1 h
      obtain ⟨rest, s₂, hrest, h⟩ := Returns.bind_iff.1 h
      obtain ⟨rfl, rfl⟩ := Returns.pure_iff.1 h
      obtain ⟨op₁, t, hsubstitute, hvisit⟩ := Returns.bind_iff.1 hvisit
      obtain ⟨rfl, rfl⟩ := eq_applyTo_of_returns_substitute hsubstitute
      obtain ⟨op₂, before, hearly, hvisit⟩ := Returns.bind_iff.1 hvisit
      obtain ⟨recording?, after, happly, hcommit⟩ := Returns.bind_iff.1 hvisit
      obtain ⟨inner, hinner⟩ := hwithin.exists_walked _ hearly
      obtain ⟨later, hlater⟩ := ih hrest
      let offer : Offer σ := ⟨depth, op₂, before, recording?, after⟩
      unfold commit at hcommit
      rw [Returns.modify_bind_iff] at hcommit
      cases hstays : stays? op₂ (recording?.getD {}) with
      | none =>
          rw [hstays] at hcommit
          obtain ⟨rfl, rfl⟩ := Returns.pure_iff.1 hcommit
          exact ⟨inner ++ offer :: later, .gone rfl hinner happly hstays hlater⟩
      | some kept =>
          rw [hstays] at hcommit
          dsimp only at hcommit
          rw [settle_eq] at hcommit
          obtain ⟨kept', between, hlate, hcommit⟩ := Returns.bind_iff.1 hcommit
          rw [Returns.modify_bind_iff] at hcommit
          obtain ⟨rfl, rfl⟩ := Returns.pure_iff.1 hcommit
          obtain ⟨inside, hinside⟩ := hwithin.exists_walked _ hlate
          rw [List.append_assoc]
          exact ⟨inner ++ offer :: (inside ++ later),
            .stays rfl hinner happly hstays hinside hlater⟩

theorem walksWithin_visitRegion (levels depth : Nat) :
    WalksWithin patterns config depth (visitRegion patterns config levels depth) := by
  induction levels generalizing depth with
  | zero =>
      rintro ⟨head, _ | ops⟩ s op' s' h
      · obtain ⟨rfl, rfl⟩ := Returns.pure_iff.1 h
        exact ⟨[], .leaf depth head s'⟩
      · exact absurd h Returns.throw_iff
  | succ levels ih =>
      rintro ⟨head, _ | ops⟩ s op' s' h
      · unfold visitRegion at h
        obtain ⟨rfl, rfl⟩ := Returns.pure_iff.1 h
        exact ⟨[], .leaf depth head s'⟩
      · unfold visitRegion at h
        obtain ⟨out, s₁, hops, h⟩ := Returns.bind_iff.1 h
        obtain ⟨rfl, rfl⟩ := Returns.pure_iff.1 h
        obtain ⟨offers, hwalked⟩ := exists_walkedAll (ih (depth + 1)) hops
        exact ⟨offers, .region hwalked⟩

/-- **A sweep that returns is a walk** from the root, and all that is replaced on the way is
replaced everywhere in the end. -/
theorem exists_walked_of_returns_sweep (h : Returns (sweep patterns config root) s root' s') :
    ∃ offers swept between, WalkedWithin patterns config true 0 root
      { s with definitions := .empty } offers swept between
      ∧ root' = between.replaced.applyTo swept
      ∧ s' = { between with replaced := .empty, erased := [] } := by
  rw [sweep_eq, Returns.modify_bind_iff] at h
  obtain ⟨swept, between, hvisit, hfinish⟩ := Returns.bind_iff.1 h
  obtain ⟨offers, hwalked⟩ := walksWithin_visitRegion _ 0 _ _ _ _ hvisit
  exact ⟨offers, swept, between, hwalked, eq_applyTo_of_returns_finish hfinish,
    (returns_finish hfinish).2⟩

end DialectIR.Greedy
