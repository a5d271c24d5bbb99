import DialectIR.Proofs.Growth
import Mathlib.Data.List.Nodup

/-! Registering dialects in any order. Dialects are registered one by one, in lists, and in
registries of their own that are then added to others. However that is done, a registry holds what
it has been handed; and there is a conflict exactly if two different dialects that are handed on
claim one namespace. So neither the order nor the grouping matters. -/

namespace DialectIR

/-- Maps that answer every lookup alike are equal. -/
theorem Dict.ext_get? {α : Type} {a b : Dict α} (h : ∀ key, a.get? key = b.get? key) : a = b := by
  have hmem (map : Dict α) (entry : String × α) : entry ∈ map.entries
    ↔ map.get? entry.1 = some entry.2 :=
    ⟨get?_of_mem, mem_of_get?⟩
  have hnodup (map : Dict α) : map.entries.Nodup :=
    map.sorted.imp fun {x y} (hlt : x.1 < y.1) (heq : x = y) =>
    String.lt_irrefl y.1 (heq ▸ hlt)
  have hperm : a.entries.Perm b.entries :=
    (List.perm_ext_iff_of_nodup (hnodup a) (hnodup b)).2 fun entry => by rw [hmem, hmem, h]
  refine ext_entries (hperm.eq_of_pairwise (fun x y _ _ hxy hyx => ?_) a.sorted b.sorted)
  exact absurd (String.lt_trans hxy hyx) (String.lt_irrefl _)

namespace Registry

variable {registry other after : Registry} {dialects more : List Dialect} {dialect : Dialect}
  {name : String} {conflict : NamespaceConflict}

/-- The registry holds the dialects of the list and no others, in whatever order and however often
they are listed. -/
def Consists (registry : Registry) (dialects : List Dialect) : Prop :=
  ∀ dialect, dialect ∈ registry.dialects ↔ dialect ∈ dialects

/-- Two different dialects of the list claim the namespace. -/
def Disputed (dialects : List Dialect) (name : String) : Prop :=
  ∃ a ∈ dialects, ∃ b ∈ dialects, a.name = name ∧ b.name = name ∧ a ≠ b

theorem mem_dialects_iff :
    dialect ∈ registry.dialects ↔ registry.get? dialect.name = some dialect :=
  ⟨get?_of_mem_dialects, fun h => List.mem_map.2 ⟨_, Dict.mem_of_get? h, rfl⟩⟩

theorem Consists.refl (registry : Registry) : registry.Consists registry.dialects :=
  fun _ => Iff.rfl

theorem consists_empty : empty.Consists [] := fun _ => Iff.rfl

theorem Consists.congr (h : registry.Consists dialects)
    (hsame : ∀ dialect, dialect ∈ dialects ↔ dialect ∈ more) :
    registry.Consists more := fun dialect => (h dialect).trans (hsame dialect)

theorem Disputed.mono (h : Disputed dialects name) (hsubset : dialects ⊆ more) :
    Disputed more name := by
  obtain ⟨a, ha, b, hb, hclaims⟩ := h
  exact ⟨a, hsubset ha, b, hsubset hb, hclaims⟩

/-- What a registry holds under a namespace is the dialect of the list that claims it. -/
theorem Consists.get?_eq_some_iff (h : registry.Consists dialects) :
    registry.get? name = some dialect ↔ dialect ∈ dialects ∧ dialect.name = name := by
  rw [← h, mem_dialects_iff]
  constructor
  · intro hget
    obtain rfl := registry.named _ _ hget
    exact ⟨hget, rfl⟩
  · rintro ⟨hget, rfl⟩
    exact hget

/-- In a registry every namespace has one dialect. -/
theorem Consists.not_disputed (h : registry.Consists dialects) : ¬ Disputed dialects name := by
  rintro ⟨a, ha, b, hb, rfl, hname, hne⟩
  have hget := h.get?_eq_some_iff.2 ⟨ha, rfl⟩
  rw [h.get?_eq_some_iff.2 ⟨hb, hname⟩] at hget
  exact hne (Option.some.inj hget).symm

/-- A registry that holds the dialects of another and a list has those of the list under the
namespaces that are new. -/
theorem Consists.get?_eq (h : after.Consists (registry.dialects ++ dialects)) :
    after.get? name = (registry.get? name).or
      (dialects.find? fun dialect => dialect.name = name) := by
  cases hold : registry.get? name with
  | some existing =>
      obtain rfl := registry.named _ _ hold
      exact h.get?_eq_some_iff.2 ⟨List.mem_append_left _ (mem_dialects_iff.2 hold), rfl⟩
  | none =>
      rw [Option.none_or]
      cases hfind : dialects.find? fun dialect => dialect.name = name with
      | some dialect =>
          have hname : dialect.name = name := by simpa using List.find?_some hfind
          exact h.get?_eq_some_iff.2
            ⟨List.mem_append_right _ (List.mem_of_find?_eq_some hfind), hname⟩
      | none =>
          rw [List.find?_eq_none] at hfind
          refine Option.eq_none_iff_forall_ne_some.2 fun dialect hget => ?_
          obtain ⟨hmem, rfl⟩ := h.get?_eq_some_iff.1 hget
          rcases List.mem_append.1 hmem with hregistered | hlisted
          · rw [mem_dialects_iff.1 hregistered] at hold
            cases hold
          · simpa using hfind dialect hlisted

theorem Consists.unique (h : registry.Consists dialects) (hother : other.Consists dialects) :
    registry = other := by
  have hentries : registry.entries = other.entries := by
    refine Dict.ext_get? fun name => Option.ext fun dialect => ?_
    exact h.get?_eq_some_iff.trans hother.get?_eq_some_iff.symm
  obtain ⟨_, _⟩ := registry
  obtain ⟨_, _⟩ := other
  cases hentries
  rfl

/-- What comes of handing the dialects of a list to a registry: it holds them all, or two of them
are in conflict. -/
def Settles (dialects : List Dialect) : Except NamespaceConflict Registry → Prop
  | .ok after => after.Consists dialects
  | .error conflict => Disputed dialects conflict.dialect

theorem Settles.congr {outcome : Except NamespaceConflict Registry} (h : Settles dialects outcome)
    (hsame : ∀ dialect, dialect ∈ dialects ↔ dialect ∈ more) : Settles more outcome := by
  cases outcome with
  | ok after => exact Consists.congr h hsame
  | error conflict => exact Disputed.mono h fun dialect => (hsame dialect).1

theorem settles_insert (h : registry.Consists dialects) (dialect : Dialect) :
    Settles (dialects ++ [dialect]) (registry.insert dialect) := by
  unfold insert
  split
  next existing hget =>
    obtain ⟨hmem, hname⟩ := h.get?_eq_some_iff.1 hget
    split
    next hsame =>
      subst hsame
      exact h.congr fun other => by simpa using fun heq => heq ▸ hmem
    next hdiffer =>
      exact ⟨existing, List.mem_append_left _ hmem, dialect,
        List.mem_append_right _ List.mem_cons_self, hname, rfl, hdiffer⟩
  next hnone =>
    intro other
    have hadd : (registry.add dialect).get? other.name
        = if other.name = dialect.name then some dialect else registry.get? other.name :=
          Dict.get?_insert ..
    rw [mem_dialects_iff, hadd, List.mem_append, List.mem_singleton, ← h, mem_dialects_iff]
    split
    next hname => simp [hname, hnone, eq_comm]
    next hname =>
      have hne : other ≠ dialect := fun heq => hname (congrArg Dialect.name heq)
      simp [hne]

/-- A conflict is where a program ends. -/
def settled : Registry × Option NamespaceConflict → Except NamespaceConflict Registry
  | (registry, none) => .ok registry
  | (_, some conflict) => .error conflict

theorem settles_insertAll (h : registry.Consists dialects) (more : List Dialect) :
    Settles (dialects ++ more) (settled (registry.insertAll more)) := by
  induction more generalizing registry dialects with
  | nil => rwa [List.append_nil]
  | cons dialect more ih =>
      have hfirst := settles_insert h dialect
      rw [insertAll]
      split
      next between hinsert =>
        rw [hinsert] at hfirst
        rw [List.append_cons]
        exact ih hfirst
      next conflict hinsert =>
        rw [hinsert] at hfirst
        exact Disputed.mono hfirst (by simp)

theorem settles_append (h : registry.Consists dialects) (hother : other.Consists more) :
    Settles (dialects ++ more) (settled (registry.append other)) :=
  (settles_insertAll h other.dialects).congr fun dialect => by
    rw [List.mem_append, List.mem_append, hother dialect]

/-! ### Programs -/

/-- What a program does to registries, which it knows by their numbers. -/
inductive Call where
  | create
  | insert (index : Nat) (dialect : Dialect)
  | insertAll (index : Nat) (dialects : List Dialect)
  /-- Adds all dialects of the other registry. -/
  | append (index other : Nat)
deriving DecidableEq

namespace Call

/-- The dialects that the call names. -/
def mentions : Call → List Dialect
  | .insert _ dialect => [dialect]
  | .insertAll _ dialects => dialects
  | _ => []

/-- Does something to a registry, if there is one of this number. -/
def update (registries : List Registry) (index : Nat)
    (f : Registry → Except NamespaceConflict Registry) :
    Except NamespaceConflict (List Registry) :=
  match registries[index]? with
  | some registry => (f registry).map (registries.set index)
  | none => .ok registries

/-- The registries after the call, or the conflict in which it ends. -/
def perform (registries : List Registry) : Call → Except NamespaceConflict (List Registry)
  | .create => .ok (registries ++ [.empty])
  | .insert index dialect => update registries index (·.insert dialect)
  | .insertAll index dialects =>
      update registries index fun registry => settled (registry.insertAll dialects)
  | .append index other =>
      match registries[other]? with
      | some other => update registries index fun registry => settled (registry.append other)
      | none => .ok registries

/-- What the registries have been handed after the call, if they have been handed the given dialects
before it. -/
def feed (fed : List (List Dialect)) : Call → List (List Dialect)
  | .create => fed ++ [[]]
  | .insert index dialect => fed.modify index (· ++ [dialect])
  | .insertAll index dialects => fed.modify index (· ++ dialects)
  | .append index other => fed.modify index (· ++ fed.getD other [])

end Call

/-- Each registry holds what it has been handed. -/
structure Accounts (registries : List Registry) (fed : List (List Dialect)) : Prop where
  length : registries.length = fed.length
  consists : ∀ {index : Nat} {registry : Registry} {dialects : List Dialect},
    registries[index]? = some registry → fed[index]? = some dialects → registry.Consists dialects

/-- What comes of a program that names dialects of a list only. -/
def Proceeds (all : List Dialect) (fed : List (List Dialect)) :
    Except NamespaceConflict (List Registry) → Prop
  | .ok registries => Accounts registries fed
  | .error conflict => Disputed all conflict.dialect

variable {registries : List Registry} {fed : List (List Dialect)} {all : List Dialect} {call : Call}
  {calls : List Call}

theorem Accounts.fed_of_registry (h : Accounts registries fed) {index : Nat}
    (hregistry : registries[index]? = some registry) :
    ∃ dialects, fed[index]? = some dialects ∧ registry.Consists dialects := by
  have hlt : index < fed.length := h.length ▸ (List.getElem?_eq_some_iff.1 hregistry).1
  exact ⟨fed[index], List.getElem?_eq_getElem hlt,
    h.consists hregistry (List.getElem?_eq_getElem hlt)⟩

theorem Accounts.fed_of_none (h : Accounts registries fed) {index : Nat}
    (hnone : registries[index]? = none) : fed[index]? = none := by
  rw [List.getElem?_eq_none_iff] at hnone ⊢
  exact h.length ▸ hnone

theorem proceeds_update (h : Accounts registries fed) (hfed : ∀ list ∈ fed, list ⊆ all)
    (hmore : more ⊆ all) (index : Nat) {f : Registry → Except NamespaceConflict Registry}
    (hf : ∀ {registry : Registry} {dialects}, registry.Consists dialects →
      Settles (dialects ++ more) (f registry)) :
    Proceeds all (fed.modify index (· ++ more)) (Call.update registries index f) := by
  unfold Call.update
  split
  next registry hregistry =>
    obtain ⟨dialects, hdialects, hconsists⟩ := h.fed_of_registry hregistry
    have hsettles := hf hconsists
    cases hafter : f registry with
    | error conflict =>
        rw [hafter] at hsettles
        exact Disputed.mono hsettles
          (List.append_subset.2 ⟨hfed _ (List.mem_of_getElem? hdialects), hmore⟩)
    | ok after =>
        rw [hafter] at hsettles
        refine ⟨by simpa using h.length, fun {place registry' dialects'} hregistry' hdialects' => ?_⟩
        by_cases hplace : index = place
        · subst hplace
          rw [List.getElem?_modify_eq, hdialects] at hdialects'
          rw [List.getElem?_set_self (List.getElem?_eq_some_iff.1 hregistry).1] at hregistry'
          cases hregistry'
          cases hdialects'
          exact hsettles
        · rw [List.getElem?_modify_ne _ _ hplace] at hdialects'
          rw [List.getElem?_set_ne hplace] at hregistry'
          exact h.consists hregistry' hdialects'
  next hnone =>
    rw [List.modify_eq_self (List.getElem?_eq_none_iff.1 (h.fed_of_none hnone))]
    exact h

theorem proceeds_perform (h : Accounts registries fed) (hfed : ∀ list ∈ fed, list ⊆ all)
    (hcall : call.mentions ⊆ all) :
    Proceeds all (call.feed fed) (call.perform registries) := by
  cases call with
  | create =>
      refine ⟨by simp [Call.feed, h.length],
        fun {place registry dialects} hregistry hdialects => ?_⟩
      rw [Call.feed, List.getElem?_append] at hdialects
      rw [List.getElem?_append, h.length] at hregistry
      split at hregistry
      next hlt =>
        rw [if_pos hlt] at hdialects
        exact h.consists hregistry hdialects
      next hlt =>
        rw [if_neg hlt] at hdialects
        obtain rfl := List.mem_singleton.1 (List.mem_of_getElem? hregistry)
        obtain rfl := List.mem_singleton.1 (List.mem_of_getElem? hdialects)
        exact consists_empty
  | insert index dialect =>
      exact proceeds_update h hfed hcall index fun hregistry => settles_insert hregistry dialect
  | insertAll index dialects =>
      exact proceeds_update h hfed hcall index fun hregistry => settles_insertAll hregistry dialects
  | append index other =>
      rw [Call.perform, Call.feed, List.getD_eq_getElem?_getD]
      split
      next other' hother =>
        obtain ⟨dialects, hdialects, hconsists⟩ := h.fed_of_registry hother
        rw [hdialects, Option.getD_some]
        exact proceeds_update h hfed (hfed _ (List.mem_of_getElem? hdialects)) index
          fun hregistry => settles_append hregistry hconsists
      next hnone =>
        have hsame : (fun list : List Dialect => list ++ []) = id := funext List.append_nil
        rw [h.fed_of_none hnone, Option.getD_none, hsame, List.modify_id]
        exact h

theorem subset_of_mem_modify {index : Nat} (hfed : ∀ list ∈ fed, list ⊆ all) (hmore : more ⊆ all) :
    ∀ list ∈ fed.modify index (· ++ more), list ⊆ all := by
  intro list hlist
  obtain ⟨place, hplace⟩ := List.getElem?_of_mem hlist
  rw [List.getElem?_modify, Option.map_eq_map, Option.map_eq_some_iff] at hplace
  obtain ⟨before, hbefore, rfl⟩ := hplace
  have hsubset := hfed _ (List.mem_of_getElem? hbefore)
  split
  · exact List.append_subset.2 ⟨hsubset, hmore⟩
  · exact hsubset

theorem subset_of_mem_feed (hfed : ∀ list ∈ fed, list ⊆ all) (hcall : call.mentions ⊆ all) :
    ∀ list ∈ call.feed fed, list ⊆ all := by
  cases call with
  | create => simpa [Call.feed, or_imp, forall_and] using hfed
  | insert index dialect => exact subset_of_mem_modify hfed hcall
  | insertAll index dialects => exact subset_of_mem_modify hfed hcall
  | append index other =>
      refine subset_of_mem_modify hfed ?_
      rw [List.getD_eq_getElem?_getD]
      cases hother : fed[other]? with
      | none => exact List.nil_subset _
      | some dialects => exact hfed _ (List.mem_of_getElem? hother)

/-- The registries after the calls, or the first conflict. -/
def performAll (calls : List Call) (registries : List Registry) :
    Except NamespaceConflict (List Registry) :=
  calls.foldlM Call.perform registries

/-- What the registries have been handed after the calls. -/
def feedAll (calls : List Call) (fed : List (List Dialect)) : List (List Dialect) :=
  calls.foldl Call.feed fed

/-- What a registry has been handed stays. -/
theorem Call.feed_cons (call : Call) (first : List Dialect) (rest : List (List Dialect)) :
    ∃ more rest', call.feed (first :: rest) = (first ++ more) :: rest' := by
  have hmodify (index : Nat) (added : List Dialect) :
      ∃ more rest', (first :: rest).modify index (· ++ added) = (first ++ more) :: rest' := by
    cases index with
    | zero => exact ⟨added, rest, rfl⟩
    | succ index => exact ⟨[], rest.modify index (· ++ added), by rw [List.append_nil]; rfl⟩
  cases call with
  | create => exact ⟨[], rest ++ [[]], by rw [List.append_nil]; rfl⟩
  | insert index dialect => exact hmodify index [dialect]
  | insertAll index dialects => exact hmodify index dialects
  | append index other => exact hmodify index _

theorem feedAll_cons (calls : List Call) (first : List Dialect) (rest : List (List Dialect)) :
    ∃ more rest', feedAll calls (first :: rest) = (first ++ more) :: rest' := by
  induction calls generalizing first rest with
  | nil => exact ⟨[], rest, by rw [List.append_nil]; rfl⟩
  | cons call calls ih =>
      obtain ⟨more, rest', hfeed⟩ := call.feed_cons first rest
      obtain ⟨later, rest'', hlater⟩ := ih (first ++ more) rest'
      refine ⟨more ++ later, rest'', ?_⟩
      rw [feedAll, List.foldl_cons, hfeed, ← List.append_assoc]
      exact hlater

theorem subset_of_mem_feedAll (hfed : ∀ list ∈ fed, list ⊆ all)
    (hcalls : ∀ call ∈ calls, call.mentions ⊆ all) :
    ∀ list ∈ feedAll calls fed, list ⊆ all := by
  induction calls generalizing fed with
  | nil => exact hfed
  | cons call calls ih =>
      obtain ⟨hcall, hrest⟩ := List.forall_mem_cons.1 hcalls
      exact ih (subset_of_mem_feed hfed hcall) hrest

/-- **A registry holds what it has been handed**, and a conflict is one of two dialects that are
handed on. -/
theorem proceeds_performAll (h : Accounts registries fed) (hfed : ∀ list ∈ fed, list ⊆ all)
    (hcalls : ∀ call ∈ calls, call.mentions ⊆ all) :
    Proceeds all (feedAll calls fed) (performAll calls registries) := by
  induction calls generalizing registries fed with
  | nil => exact h
  | cons call calls ih =>
      obtain ⟨hcall, hrest⟩ := List.forall_mem_cons.1 hcalls
      have hfirst := proceeds_perform h hfed hcall
      rw [performAll, List.foldlM_cons]
      cases hperform : call.perform registries with
      | error conflict =>
          rw [hperform] at hfirst
          exact hfirst
      | ok between =>
          rw [hperform] at hfirst
          exact ih hfirst (subset_of_mem_feed hfed hcall) hrest

/-- The program registers the dialects of a list in a registry, the first that it knows: it names no
others, and in the end they all have been handed to the registry, unless it had them before. -/
structure Registers (registry : Registry) (dialects : List Dialect) (calls : List Call) : Prop where
  only : ∀ call ∈ calls, call.mentions ⊆ dialects
  all : dialects ⊆ (feedAll calls [registry.dialects]).headD []

theorem feedAll_direct {calls : List Call}
    (h : ∀ call ∈ calls, (∃ dialect, call = .insert 0 dialect) ∨ ∃ list, call = .insertAll 0 list)
    (first : List Dialect) (rest : List (List Dialect)) :
    feedAll calls (first :: rest) = (first ++ calls.flatMap Call.mentions) :: rest := by
  induction calls generalizing first with
  | nil => simp [feedAll]
  | cons call calls ih =>
      obtain ⟨hcall, hrest⟩ := List.forall_mem_cons.1 h
      have hfeed : call.feed (first :: rest) = (first ++ call.mentions) :: rest := by
        rcases hcall with ⟨dialect, rfl⟩ | ⟨list, rfl⟩
        · rfl
        · rfl
      rw [feedAll, List.foldl_cons, hfeed, List.flatMap_cons, ← List.append_assoc]
      exact ih hrest _

/-- One by one and in lists, in any order and with repetitions. -/
theorem Registers.direct {calls : List Call}
    (h : ∀ call ∈ calls, (∃ dialect, call = .insert 0 dialect) ∨ ∃ list, call = .insertAll 0 list)
    (hsame : ∀ dialect, dialect ∈ calls.flatMap Call.mentions ↔ dialect ∈ dialects) :
    Registers registry dialects calls where
  only call hcall dialect hdialect := (hsame dialect).1 (List.mem_flatMap.2 ⟨call, hcall, hdialect⟩)
  all dialect hdialect := by
    rw [feedAll_direct h, List.headD_cons]
    exact List.mem_append_right _ ((hsame dialect).2 hdialect)

/-- Makes a registry for each list of dialects. -/
def building (parts : List (List Dialect)) (first : Nat) : List Call :=
  (parts.zipIdx first).flatMap fun (part, index) => [.create, .insertAll index part]

theorem feedAll_building (parts : List (List Dialect)) (fed : List (List Dialect)) :
    feedAll (building parts fed.length) fed = fed ++ parts := by
  induction parts generalizing fed with
  | nil => simp [building, feedAll]
  | cons part parts ih =>
      have hlast : (fed ++ [[]]).modify fed.length (· ++ part) = fed ++ [part] := by
        rw [List.modify_eq_take_drop, List.take_left, List.drop_left]
        rfl
      have hih := ih (fed ++ [part])
      rw [List.length_append, List.length_singleton] at hih
      rw [building, List.zipIdx_cons, List.flatMap_cons, feedAll, List.foldl_append]
      show feedAll (building parts (fed.length + 1))
        ((fed ++ [[]]).modify fed.length (· ++ part)) = _
      rw [hlast, hih, List.append_assoc, List.singleton_append]

theorem mem_headD_feedAll_append {order : List Nat} {index : Nat} (hindex : index ∈ order)
    {first : List Dialect} {rest : List (List Dialect)} {part : List Dialect}
    (hpart : rest[index]? = some part) :
    part ⊆ (feedAll (order.map fun index => .append 0 (index + 1)) (first :: rest)).headD [] := by
  induction order generalizing first with
  | nil => cases hindex
  | cons next order ih =>
      rcases List.mem_cons.1 hindex with rfl | hlater
      · have hadded : (first :: rest).getD (index + 1) [] = part := by simp [hpart]
        obtain ⟨more, rest', hlater⟩ := feedAll_cons (order.map fun index => .append 0 (index + 1))
          (first ++ part) rest
        rw [List.map_cons, feedAll, List.foldl_cons, Call.feed, hadded]
        show part ⊆ (feedAll _ ((first ++ part) :: rest)).headD []
        rw [hlater, List.headD_cons]
        exact List.subset_append_of_subset_left _ (List.subset_append_right _ _)
      · exact ih hlater

/-- In registries of their own, which are then added in any order, perhaps repeatedly. -/
theorem Registers.parts {parts : List (List Dialect)} {order : List Nat}
    (horder : ∀ index < parts.length, index ∈ order)
    (hsame : ∀ dialect, dialect ∈ parts.flatten ↔ dialect ∈ dialects) :
    Registers registry dialects (building parts 1 ++ order.map fun index =>
      .append 0 (index + 1)) where
  only call hcall dialect hdialect := by
    refine (hsame dialect).1 ?_
    rcases List.mem_append.1 hcall with hbuild | happend
    · obtain ⟨⟨part, index⟩, hpart, hcall⟩ := List.mem_flatMap.1 hbuild
      simp only [List.mem_cons, List.not_mem_nil, or_false] at hcall
      rcases hcall with rfl | rfl
      · cases hdialect
      · exact List.mem_flatten.2 ⟨part, List.fst_mem_of_mem_zipIdx hpart, hdialect⟩
    · obtain ⟨index, -, rfl⟩ := List.mem_map.1 happend
      cases hdialect
  all dialect hdialect := by
    obtain ⟨part, hpart, hmem⟩ := List.mem_flatten.1 ((hsame dialect).2 hdialect)
    obtain ⟨index, hindex⟩ := List.getElem?_of_mem hpart
    rw [feedAll, List.foldl_append]
    have hbuilt := feedAll_building parts [registry.dialects]
    rw [feedAll, List.length_singleton] at hbuilt
    rw [hbuilt]
    exact mem_headD_feedAll_append (horder index (List.getElem?_eq_some_iff.1 hindex).1) hindex hmem

/-! ### Any way -/

theorem Registers.proceeds (h : Registers registry dialects calls) :
    Proceeds (registry.dialects ++ dialects) (feedAll calls [registry.dialects])
      (performAll calls [registry]) := by
  have hstart : Accounts [registry] [registry.dialects] := by
    refine ⟨rfl, fun {index _ _} hregistry hdialects => ?_⟩
    obtain rfl := List.mem_singleton.1 (List.mem_of_getElem? hregistry)
    obtain rfl := List.mem_singleton.1 (List.mem_of_getElem? hdialects)
    exact .refl _
  refine proceeds_performAll hstart ?_ fun call hcall =>
    List.Subset.trans (h.only call hcall) (List.subset_append_right _ _)
  exact List.forall_mem_singleton.2 (List.subset_append_left _ _)

/-- At the end of such a program the registry holds what it held before and the list. -/
theorem Registers.consists (h : Registers registry dialects calls)
    (hends : Accounts registries (feedAll calls [registry.dialects])) :
    ∃ after others, registries = after :: others
      ∧ after.Consists (registry.dialects ++ dialects) := by
  obtain ⟨more, rest, hfed⟩ := feedAll_cons calls registry.dialects []
  have hall : dialects ⊆ registry.dialects ++ more := by simpa [hfed] using h.all
  have honly : registry.dialects ++ more ⊆ registry.dialects ++ dialects := by
    refine subset_of_mem_feedAll (List.forall_mem_singleton.2 (List.subset_append_left _ _))
      (fun call hcall => ?_) _
      (hfed ▸ List.mem_cons_self)
    exact List.Subset.trans (h.only call hcall) (List.subset_append_right _ _)
  rw [hfed] at hends
  cases registries with
  | nil => cases hends.length
  | cons after others =>
      have hconsists : after.Consists (registry.dialects ++ more) :=
        hends.consists (show (after :: others)[0]? = some after from rfl) rfl
      refine ⟨after, others, rfl, hconsists.congr fun dialect =>
        ⟨fun hmem => honly hmem, fun hmem => ?_⟩⟩
      exact List.append_subset.2 ⟨List.subset_append_left _ _, hall⟩ hmem

/-- **Registering dialects is order-independent.** If two different dialects of a list and of a
registry claim one namespace, then every program that registers the list in the registry ends in a
conflict about such a namespace. Else all such programs leave the same registry, whatever else they
make: it has its old dialects, and for each further namespace the dialect of the list that claims
it. -/
theorem performAll_of_registers (registry : Registry) (dialects : List Dialect) :
    (∃ name, Disputed (registry.dialects ++ dialects) name)
        ∧ (∀ calls, Registers registry dialects calls →
            ∃ conflict, performAll calls [registry] = .error conflict
              ∧ Disputed (registry.dialects ++ dialects) conflict.dialect)
      ∨ (∀ name, ¬ Disputed (registry.dialects ++ dialects) name)
        ∧ ∃ after : Registry,
          (∀ name, after.get? name = (registry.get? name).or
            (dialects.find? fun dialect => dialect.name = name))
          ∧ ∀ calls, Registers registry dialects calls → ∃ others,
            performAll calls [registry] = .ok (after :: others) := by
  by_cases hdisputed : ∃ name, Disputed (registry.dialects ++ dialects) name
  · refine .inl ⟨hdisputed, fun calls hcalls => ?_⟩
    have hends := hcalls.proceeds
    cases houtcome : performAll calls [registry] with
    | error conflict =>
        rw [houtcome] at hends
        exact ⟨conflict, rfl, hends⟩
    | ok registries =>
        rw [houtcome] at hends
        obtain ⟨name, hname⟩ := hdisputed
        obtain ⟨after, others, -, hconsists⟩ := hcalls.consists hends
        exact absurd hname hconsists.not_disputed
  · rw [not_exists] at hdisputed
    have hall := settles_insertAll (Consists.refl registry) dialects
    cases hinsert : settled (registry.insertAll dialects) with
    | error conflict =>
        rw [hinsert] at hall
        exact absurd hall (hdisputed _)
    | ok after =>
        rw [hinsert] at hall
        refine .inr ⟨hdisputed, after, fun name => hall.get?_eq, fun calls hcalls => ?_⟩
        have hends := hcalls.proceeds
        cases houtcome : performAll calls [registry] with
        | error conflict =>
            rw [houtcome] at hends
            exact absurd hends (hdisputed _)
        | ok registries =>
            rw [houtcome] at hends
            obtain ⟨after', others, rfl, hconsists⟩ := hcalls.consists hends
            exact ⟨others, by rw [hconsists.unique hall]⟩

/-- Arithmetic and functions, once in the two orders with a repetition, and once as parts that are
added last part first. -/
theorem performAll_of_registers_func_arith :
    let direct : List Call := [.insert 0 .arith, .insertAll 0 [.func, .arith]]
    let parts : List Call := building [[.func], [.arith]] 1 ++ [1, 0].map fun index =>
      .append 0 (index + 1)
    Registers empty [.func, .arith] direct ∧ Registers empty [.func, .arith] parts
      ∧ ∃ after others others', performAll direct [empty] = .ok (after :: others)
        ∧ performAll parts [empty] = .ok (after :: others') ∧ after.get? "arith" = some .arith := by
  have hdirect : Registers empty [.func, .arith] [.insert 0 .arith, .insertAll 0 [.func, .arith]] :=
    .direct (by simp) fun dialect => by simp [Call.mentions, or_comm]
  have hparts : Registers empty [.func, .arith]
    (building [[.func], [.arith]] 1 ++ [1, 0].map fun index => .append 0 (index + 1)) :=
    .parts (by decide) fun dialect => by simp
  have hagree : ∀ name, ¬ Disputed (empty.dialects ++ [.func, .arith]) name := by
    rintro name ⟨a, ha, b, hb, hname, rfl, hne⟩
    have hone : ∀ a ∈ empty.dialects ++ [.func, .arith], ∀ b ∈ empty.dialects ++ [.func, .arith],
        a.name = b.name → a = b := by decide
    exact hne (hone a ha b hb hname)
  refine ⟨hdirect, hparts, ?_⟩
  rcases performAll_of_registers empty [.func, .arith] with ⟨⟨name, hname⟩, -⟩
    | ⟨-, after, hget, hways⟩
  · exact absurd hname (hagree name)
  · obtain ⟨others, hothers⟩ := hways _ hdirect
    obtain ⟨others', hothers'⟩ := hways _ hparts
    exact ⟨after, others, others', hothers, hothers', by rw [hget]; decide⟩

end Registry

end DialectIR
