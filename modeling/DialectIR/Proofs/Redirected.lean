import DialectIR.Proofs.Rewriting

/-! What a sweep replaces on its way through a tree, and what it leaves of it. The values that stand
for results are not replaced in turn, so that what is known of them stays true to the end. -/

namespace DialectIR

theorem Head.mapOperands_mapOperands {f g : Value → Value} {head : Head}
    (h : ∀ operand ∈ head.operands, f (g operand) = f operand) :
    (head.mapOperands g).mapOperands f = head.mapOperands f := by
  have hmap : head.operands.map (f ∘ g) = head.operands.map f := List.map_congr_left h
  simp only [Head.mapOperands, List.map_map, hmap]

theorem Operation.region_mapHeads (f : Head → Head) (op : Operation) :
    (op.mapHeads f).region.isSome = op.region.isSome := by
  obtain ⟨head, _ | ops⟩ := op <;> rfl

namespace Replacements

/-- What a value stands for if replacements are not replaced in turn. -/
def lookup (replaced : Replacements) (value : Value) : Value :=
  (replaced.get? value.name).getD value

theorem lookup_of_none {replaced : Replacements} {value : Value}
    (h : replaced.get? value.name = none) :
    replaced.lookup value = value := by
  rw [lookup, h]
  rfl

theorem lookup_of_some {replaced : Replacements} {value next : Value}
    (h : replaced.get? value.name = some next) :
    replaced.lookup value = next := by
  rw [lookup, h]
  rfl

end Replacements

namespace Greedy

open Operation

/-- The results that a match replaces, each with the value in its place. -/
def Match.redirects (m : Match) : List (Value × Value) :=
  match m.recording.action with
  | some (.replace values) => m.op.results.zip values
  | some .erase | some (.update _) | none => []

theorem Match.fst_mem_of_redirects {m : Match} {pair : Value × Value} (h : pair ∈ m.redirects) :
    pair.1 ∈ m.op.results := by
  unfold Match.redirects at h
  split at h
  · exact (List.of_mem_zip h).1
  all_goals cases h

theorem Match.redirects_of_stays {m : Match} {kept : Operation}
    (h : stays? m.op m.recording = some kept) : m.redirects = [] := by
  unfold stays? at h
  unfold Match.redirects
  rcases haction : m.recording.action with _ | (values | _ | new)
  · rfl
  · rw [haction] at h
    cases h
  · rfl
  · rfl

/-- What a sweep leaves of operations. In the place of each stands what a match inserted and left,
or the operation itself, whose uses are redirected. -/
inductive Redirected (f : Value → Value) (ms : List Match) :
    List Operation → List Operation → Prop where
  | nil : Redirected f ms [] []
  | kept {op op' : Operation} {ops out : List Operation}
      (head : op'.toHead = op.toHead.mapOperands f) (region : op'.region.isSome = op.region.isSome)
        (nested : Redirected f ms op.nested op'.nested)
      (rest : Redirected f ms ops out) : Redirected f ms (op :: ops) (op' :: out)
  | gone {m : Match} {op : Operation} {ops out : List Operation} (mem : m ∈ ms)
      (met : m.op.toHead = op.toHead.mapOperands f) (leaves : stays? m.op m.recording = none)
      (rest : Redirected f ms ops out) : Redirected f ms (op :: ops) (m.recording.inserted ++ out)
  | stays {m : Match} {op new op' : Operation} {ops out : List Operation} (mem : m ∈ ms)
      (met : m.op.toHead = op.toHead.mapOperands f) (leaves : stays? m.op m.recording = some new)
      (head : op'.toHead = new.toHead) (region : op'.region.isSome = op.region.isSome)
      (nested : Redirected f ms op.nested op'.nested) (rest : Redirected f ms ops out) :
      Redirected f ms (op :: ops) (m.recording.inserted ++ op' :: out)

namespace Redirected

variable {f g : Value → Value} {ms ms' : List Match} {ops more out rest : List Operation}

theorem mono (h : Redirected f ms ops out) (hsub : ms ⊆ ms') : Redirected f ms' ops out := by
  induction h with
  | nil => exact .nil
  | kept hhead hregion _ _ hnested hrest => exact .kept hhead hregion hnested hrest
  | gone hmem hmet hleaves _ hrest => exact .gone (hsub hmem) hmet hleaves hrest
  | stays hmem hmet hleaves hhead hregion _ _ hnested hrest =>
      exact .stays (hsub hmem) hmet hleaves hhead hregion hnested hrest

theorem append (h : Redirected f ms ops out) (h' : Redirected f ms more rest) :
    Redirected f ms (ops ++ more) (out ++ rest) := by
  induction h with
  | nil => exact h'
  | kept hhead hregion hnested _ _ ih => exact .kept hhead hregion hnested ih
  | gone hmem hmet hleaves _ ih =>
      rw [List.append_assoc]
      exact .gone hmem hmet hleaves ih
  | stays hmem hmet hleaves hhead hregion hnested _ _ ih =>
      rw [List.append_assoc]
      exact .stays hmem hmet hleaves hhead hregion hnested ih

mutual

/-- Operations without uses to be redirected are left alone. -/
theorem refl_nested :
    {op : Operation} → (∀ head ∈ op.heads, head.mapOperands f = head) →
      Redirected f ms op.nested op.nested
  | ⟨_, none⟩, _ => .nil
  | ⟨_, some _⟩, h => by
      rw [heads, List.forall_mem_cons] at h
      exact refl h.2

theorem refl :
    {ops : List Operation} → (∀ head ∈ headsOfAll ops, head.mapOperands f = head) →
      Redirected f ms ops ops
  | [], _ => .nil
  | op :: ops, h => by
      rw [headsOfAll, List.forall_mem_append] at h
      have hhead : op.toHead ∈ op.heads := heads_eq op ▸ List.mem_cons_self
      exact .kept (h.1 op.toHead hhead).symm rfl (refl_nested h.1) (refl h.2)

end

/-- Uses that were redirected in part before are redirected to the same values. -/
theorem of_mapOperands
    (hsame : ∀ head ∈ headsOfAll ops, ∀ operand ∈ head.operands, f (g operand) = f operand)
    (h : Redirected f ms (mapHeadsOfAll (Head.mapOperands g) ops) out) :
    Redirected f ms ops out := by
  generalize hsource : mapHeadsOfAll (Head.mapOperands g) ops = source at h
  induction h generalizing ops with
  | nil =>
      cases ops with
      | nil => exact .nil
      | cons op ops => cases hsource
  | kept hhead hregion _ _ hnested hrest =>
      cases ops with
      | nil => cases hsource
      | cons op ops =>
          rw [mapHeadsOfAll, List.cons.injEq] at hsource
          obtain ⟨rfl, htail⟩ := hsource
          rw [headsOfAll, List.forall_mem_append, heads_eq, List.forall_mem_cons] at hsame
          rw [toHead_mapHeads, Head.mapOperands_mapOperands hsame.1.1] at hhead
          rw [region_mapHeads] at hregion
          exact .kept hhead hregion (hnested hsame.1.2 (nested_mapHeads _ _).symm)
            (hrest hsame.2 htail)
  | gone hmem hmet hleaves _ hrest =>
      cases ops with
      | nil => cases hsource
      | cons op ops =>
          rw [mapHeadsOfAll, List.cons.injEq] at hsource
          obtain ⟨rfl, htail⟩ := hsource
          rw [headsOfAll, List.forall_mem_append, heads_eq, List.forall_mem_cons] at hsame
          rw [toHead_mapHeads, Head.mapOperands_mapOperands hsame.1.1] at hmet
          exact .gone hmem hmet hleaves (hrest hsame.2 htail)
  | stays hmem hmet hleaves hhead hregion _ _ hnested hrest =>
      cases ops with
      | nil => cases hsource
      | cons op ops =>
          rw [mapHeadsOfAll, List.cons.injEq] at hsource
          obtain ⟨rfl, htail⟩ := hsource
          rw [headsOfAll, List.forall_mem_append, heads_eq, List.forall_mem_cons] at hsame
          rw [toHead_mapHeads, Head.mapOperands_mapOperands hsame.1.1] at hmet
          rw [region_mapHeads] at hregion
          exact .stays hmem hmet hleaves hhead hregion
            (hnested hsame.1.2 (nested_mapHeads _ _).symm) (hrest hsame.2 htail)

end Redirected

/-! ### What is replaced -/

variable {σ : Type} {old new drawn drawn' keys keys' scope scope' : List String}
  {op : Operation} {ops more out rest : List Operation} {pairs pairs' : List (Value × Value)}
  {ms ms' : List Match} {s s' s'' : State σ}

/-- Just the given results are replaced between two states, and the values in their places are not
replaced in turn. -/
structure Tracks (keys scope : List String) (pairs : List (Value × Value))
    (s s' : State σ) : Prop where
  keys : ∀ pair ∈ pairs, pair.1.name ∈ keys
  scope : ∀ pair ∈ pairs, pair.2.name ∈ scope
  get? : ∀ pair ∈ pairs, s'.replaced.get? pair.1.name = if pair.1.name = pair.2.name then none
    else some pair.2
  final : ∀ pair ∈ pairs, s'.replaced.get? pair.2.name = none
  elsewhere : ∀ name, (∀ pair ∈ pairs, pair.1.name ≠ name) →
    s'.replaced.get? name = s.replaced.get? name

namespace Tracks

theorem nil (h : s'.replaced = s.replaced) : Tracks keys scope [] s s' where
  keys := nofun
  scope := nofun
  get? := nofun
  final := nofun
  elsewhere _ _ := by rw [h]

theorem mono (h : Tracks keys scope pairs s s') (hkeys : keys ⊆ keys') (hscope : scope ⊆ scope') :
    Tracks keys' scope' pairs s s' where
  keys pair hpair := hkeys (h.keys pair hpair)
  scope pair hpair := hscope (h.scope pair hpair)
  get? := h.get?
  final := h.final
  elsewhere := h.elsewhere

theorem congr {t t' : State σ} (h : Tracks keys scope pairs s s') (hs : t.Agrees s)
    (hs' : s'.Agrees t') :
    Tracks keys scope pairs t t' where
  keys := h.keys
  scope := h.scope
  get? := hs'.1 ▸ h.get?
  final := hs'.1 ▸ h.final
  elsewhere := hs'.1 ▸ hs.1 ▸ h.elsewhere

/-- Some replacements after others with which they have nothing to do. -/
theorem append (h : Tracks keys scope pairs s s') (h' : Tracks keys scope pairs' s' s'')
    (hapart : ∀ pair ∈ pairs, ∀ other ∈ pairs', other.1.name ≠ pair.1.name
      ∧ other.1.name ≠ pair.2.name) :
    Tracks keys scope (pairs ++ pairs') s s'' where
  keys := List.forall_mem_append.2 ⟨h.keys, h'.keys⟩
  scope := List.forall_mem_append.2 ⟨h.scope, h'.scope⟩
  get? := by
    refine List.forall_mem_append.2 ⟨fun pair hpair => ?_, h'.get?⟩
    rw [h'.elsewhere _ fun other hother => (hapart pair hpair other hother).1]
    exact h.get? pair hpair
  final := by
    refine List.forall_mem_append.2 ⟨fun pair hpair => ?_, h'.final⟩
    rw [h'.elsewhere _ fun other hother => (hapart pair hpair other hother).2]
    exact h.final pair hpair
  elsewhere name hname := by
    rw [List.forall_mem_append] at hname
    rw [h'.elsewhere name hname.2, h.elsewhere name hname.1]

end Tracks

/-- What is visible, erased or claimed where a sweep comes to some operations. -/
def sight (new : List String) (ops : List Operation) (drawn : List String) (s : State σ) :
    List String :=
  new ++ s.erasedNames ++ claimed ops drawn

theorem claimed_nested_subset (op : Operation) (h : drawn ⊆ drawn') :
    claimed op.nested drawn ⊆ claimed [op] drawn' := by
  intro name hname
  rw [claimed_nested, List.mem_append, mem_claimed]
  exact .inr ((mem_claimed.1 hname).imp_right (h ·))

/-- Operations before others claim nothing of theirs. -/
theorem Entry.not_mem_claimed (h : Entry old new (ops ++ more) (drawn ++ drawn') s) {name : String}
    (hname : name ∈ old ++ sight new ops drawn s) : name ∉ claimed more drawn' := by
  intro hclaimed
  have hunused := h.unused name
    ((claimed_append ops more drawn drawn').mem_iff.2 (List.mem_append_right _ hclaimed))
  rcases List.mem_append.1 hname with hold | hname
  · exact hunused.old hold
  · rcases List.mem_append.1 hname with hname | hown
    · exact (List.mem_append.1 hname).elim hunused.new hunused.erased
    · exact h.disjoint hclaimed hown

theorem Exit.sight_subset (h : Exit old new ops drawn s out s') :
    new ++ s'.erasedNames ⊆ sight new ops drawn s := by
  intro name hname
  unfold sight
  rcases List.mem_append.1 hname with hnew | herased
  · exact List.mem_append_left _ (List.mem_append_left _ hnew)
  · exact (List.mem_append.1 (h.erasedOnly herased)).elim
      (fun hbefore => List.mem_append_left _ (List.mem_append_right _ hbefore))
        (List.mem_append_right _)

/-- What a sweep replaces on its way through some operations, and what it leaves of them. -/
structure Redirects (old new : List String) (ops : List Operation) (drawn : List String)
    (s : State σ) (ms : List Match)
    (out : List Operation) (s' : State σ) : Prop where
  tracks : Tracks (claimed ops drawn) (sight new ops drawn s) (ms.flatMap Match.redirects) s s'
  /-- Later replacements do not matter, as long as they leave alone what is known here. -/
  tree : ∀ replaced : Replacements,
    (∀ name ∈ old ++ sight new ops drawn s, replaced.get? name = s'.replaced.get? name) →
    Redirected replaced.lookup ms ops out

namespace Redirects

theorem nil : Redirects old new [] drawn s [] [] s := ⟨.nil rfl, fun _ _ => .nil⟩

/-- Operations that are left alone. -/
theorem refl (h : Entry (new ++ s.erasedNames) new ops drawn s) :
    Redirects (new ++ s.erasedNames) new ops drawn s [] ops s := by
  refine ⟨.nil rfl, fun replaced hreplaced => .refl fun head hhead =>
    Head.mapOperands_of_forall fun operand hoperand => ?_⟩
  apply Replacements.lookup_of_none
  rw [hreplaced]
  · exact (Exit.refl h).get?_of_operand hhead hoperand
  · rw [List.mem_append]
    refine (h.uses.mem_of_operand operand (List.mem_flatMap.2 ⟨head, hhead, hoperand⟩)).imp_right
      fun hdefined => ?_
    exact List.mem_append_right _ (List.mem_append_left _ hdefined)

/-- One list of operations after the other. -/
theorem append (h : Entry old new (ops ++ more) (drawn ++ drawn') s)
    (hexit : Exit old new ops drawn s out s') (hfirst : Redirects old new ops drawn s ms out s')
    (hrest : Redirects (visibleAfter old ops) (visibleAfter new out) more drawn' s' ms' rest s'') :
    Redirects old new (ops ++ more) (drawn ++ drawn') s (ms ++ ms') (out ++ rest) s'' := by
  have hclaimed {name : String} (hname : name ∈ claimed ops drawn ∨ name ∈ claimed more drawn') :
      name ∈ claimed (ops ++ more) (drawn ++ drawn') :=
        (claimed_append ops more drawn drawn').mem_iff.2 (List.mem_append.2 hname)
  have hleft : sight new ops drawn s ⊆ sight new (ops ++ more) (drawn ++ drawn') s := by
    intro name hname
    unfold sight
    rw [List.mem_append]
    exact (List.mem_append.1 hname).imp_right fun hown => hclaimed (.inl hown)
  have hright : sight (visibleAfter new out) more drawn' s'
    ⊆ sight new (ops ++ more) (drawn ++ drawn') s := by
    intro name hname
    rcases List.mem_append.1 hname with hname | hlater
    · rw [List.mem_append, mem_visibleAfter, or_assoc, ← List.mem_append] at hname
      refine hleft (hname.elim (fun hresult => ?_) (hexit.sight_subset ·))
      exact List.mem_append_right _ (hexit.names (resultNames_subset_definedNamesOfAll out hresult))
    · exact List.mem_append_right _ (hclaimed (.inr hlater))
  have hlater {pair : Value × Value} (hpair : pair ∈ ms'.flatMap Match.redirects) : pair.1.name
    ∉ old ++ sight new ops drawn s :=
    fun hmem => h.not_mem_claimed hmem (hrest.tracks.keys pair hpair)
  refine ⟨?_, fun replaced hreplaced => ?_⟩
  · rw [List.flatMap_append]
    refine (hfirst.tracks.mono (fun _ hname => hclaimed (.inl hname)) hleft).append
      (hrest.tracks.mono (fun _ hname => hclaimed (.inr hname)) hright)
        fun pair hpair other hother => ⟨fun heq => ?_, fun heq => ?_⟩
    · refine hlater hother (heq ▸ List.mem_append_right _ (List.mem_append_right _ ?_))
      exact hfirst.tracks.keys pair hpair
    · exact hlater hother (heq ▸ List.mem_append_right _ (hfirst.tracks.scope pair hpair))
  · refine ((hfirst.tree replaced fun name hname => ?_).mono (List.subset_append_left _ _)).append
      ((hrest.tree replaced fun name hname => hreplaced name ?_).mono (List.subset_append_right _ _))
    · rw [hreplaced, hrest.tracks.elsewhere]
      · rintro pair hpair rfl
        exact hlater hpair hname
      · exact (List.mem_append.1 hname).elim (List.mem_append_left _) fun hmem =>
          List.mem_append_right _ (hleft hmem)
    · rcases List.mem_append.1 hname with hname | hname
      · rcases mem_visibleAfter.1 hname with hresult | hold
        · refine List.mem_append_right _ (hleft (List.mem_append_right _ ?_))
          exact resultNames_subset_claimed ops drawn hresult
        · exact List.mem_append_left _ hold
      · exact List.mem_append_right _ (hright hname)

/-- Uses that are substituted before the visit are redirected like all others. -/
theorem of_substitute {op' : Operation} (h : Entry old new [op] drawn s)
    (hsubstituted : Substituted new op drawn s op') (hop : op' = op ∨ op' = s.replaced.applyTo op)
    (hexit : Exit old new [op] drawn s out s')
    (hredirects : Redirects (new ++ s.erasedNames) new [op'] drawn s ms out s') :
    Redirects old new [op] drawn s ms out s' := by
  obtain ⟨htracks, htree⟩ := hredirects
  have hclaimed : claimed [op'] drawn = claimed [op] drawn := by
    unfold claimed
    rw [definedNamesOfAll_cons, definedNamesOfAll_cons, hsubstituted.names]
  have hsight : sight new [op'] drawn s = sight new [op] drawn s := by rw [sight, hclaimed, sight]
  rw [hclaimed, hsight] at htracks
  refine ⟨htracks, fun replaced hreplaced => ?_⟩
  have hredirected : Redirected replaced.lookup ms [op'] out := by
    refine htree replaced fun name hname => hreplaced name (List.mem_append_right _ ?_)
    rw [hsight] at hname
    exact (List.mem_append.1 hname).elim (List.mem_append_left _) id
  rcases hop with rfl | rfl
  · exact hredirected
  · refine Redirected.of_mapOperands (fun head hhead operand hoperand => ?_) hredirected
    rw [headsOfAll_singleton] at hhead
    have hplace := (scopedAll_singleton.1 h.uses).mem_of_operand operand
      (List.mem_flatMap.2 ⟨head, hhead, hoperand⟩)
    cases hget : s.replaced.get? operand.name with
    | none => rw [Replacements.resolve?_of_none hget, Option.getD_some]
    | some value =>
        have hold : operand.name ∈ old := hplace.resolve_right fun hnested => by
          have hmem : operand.name ∈ definedNamesOfAll [op] := by
            rw [definedNamesOfAll_singleton]
            exact List.mem_append_right _ hnested
          rw [h.standIn_eq hmem] at hget
          cases hget
        have hstands := h.linked.stands operand.name hold
        rw [Replacements.standIn_of_some hget] at hstands
        have hlast : replaced.get? value.name = none := by
          rw [hreplaced value.name (List.mem_append_right _ (List.mem_append_left _ hstands))]
          apply hexit.linked.final
          rw [List.mem_append, mem_visibleAfter]
          exact (List.mem_append.1 hstands).imp .inr (hexit.erased ·)
        have hfirst : replaced.get? operand.name = some value := by
          rw [hreplaced operand.name (List.mem_append_left _ hold),
            hexit.elsewhere operand.name, hget]
          exact fun hown => (h.unused operand.name hown).old hold
        rw [Replacements.resolve?_of_some hget (h.linked.final value.name hstands),
          Option.getD_some, Replacements.lookup_of_none hlast, Replacements.lookup_of_some hfirst]

end Redirects

end Greedy

end DialectIR
