import DialectIR.Arith
import DialectIR.Proofs.WellFormed

/-! What a tree computes: the operations on integers give their results values in two's complement,
in view of the values of their operands, and all other operations define the values that they are
assumed to define. -/

namespace DialectIR

namespace Ty

/-- Types of integers with 1 to 64 bits. -/
def IsWord (ty : Ty) : Prop := ∃ bits, ty.width? = some bits ∧ 1 ≤ bits.toNat ∧ bits.toNat ≤ 64

instance (ty : Ty) : Decidable ty.IsWord :=
  match hwidth : ty.width? with
  | some bits => decidable_of_iff (1 ≤ bits.toNat ∧ bits.toNat ≤ 64) (by simp [IsWord, hwidth])
  | Option.none => isFalse (by simp [IsWord, hwidth])

/-- The integer with the same last bits in the two's complement range of an integer type. -/
def wrap (ty : Ty) (x : Int) : Int :=
  match ty.width? with
  | some bits => x.bmod (2 ^ bits.toNat)
  | Option.none => x

theorem wrap_wrap (ty : Ty) (x : Int) : ty.wrap (ty.wrap x) = ty.wrap x := by
  unfold wrap
  cases ty.width? with
  | none => rfl
  | some bits => exact Int.bmod_bmod

theorem wrap_zero (ty : Ty) : ty.wrap 0 = 0 := by
  unfold wrap
  cases ty.width? with
  | none => rfl
  | some bits => exact Int.zero_bmod

/-- Arithmetic on 64 bits is right for all shorter integers. -/
theorem wrap_bmod {ty : Ty} (h : ty.IsWord) (x : Int) : ty.wrap (x.bmod (2 ^ 64)) = ty.wrap x := by
  obtain ⟨bits, hwidth, -, hle⟩ := h
  have hdvd : 2 ^ bits.toNat ∣ 2 ^ 64 := Nat.pow_dvd_pow 2 hle
  unfold wrap
  rw [hwidth]
  exact Int.bmod_bmod_of_dvd hdvd

theorem wrap_truncate {ty : Ty} (h : ty.IsWord) (value : Int64) :
    ty.wrap (ty.truncate value).toInt = ty.wrap value.toInt := by
  obtain ⟨bits, hwidth, hpos, hle⟩ := h
  by_cases hlt : bits < 64
  · rw [toInt_truncate hwidth hpos hlt]
    unfold wrap
    rw [hwidth]
    exact Int.bmod_bmod
  · rw [truncate_eq_self]
    intro bits' hwidth' hbits'
    rw [hwidth] at hwidth'
    cases hwidth'
    exact hlt hbits'.2

/-- A number in the range of its type is what it is. -/
theorem wrap_of_canonical {ty : Ty} (h : ty.IsWord) {value : Int64}
    (hvalue : ty.truncate value = value) :
    ty.wrap value.toInt = value.toInt := by
  obtain ⟨bits, hwidth, hpos, hle⟩ := h
  by_cases hlt : bits < 64
  · have htruncate := toInt_truncate hwidth hpos hlt value
    rw [hvalue] at htruncate
    unfold wrap
    rw [hwidth]
    exact htruncate.symm
  · have hbits : bits.toNat = 64 := by
      have hnot : ¬ bits.toNat < 64 := hlt
      omega
    have hlow := value.le_toInt
    have hhigh := value.toInt_lt
    unfold wrap
    rw [hwidth]
    dsimp only
    rw [hbits]
    exact Int.bmod_eq_of_le (by omega) (by omega)

end Ty

namespace Arith

/-- The operations that compute an integer from integers. -/
def isArith (name : OpName) : Bool :=
  name = "arith.constant" || name = "arith.addi" || name = "arith.subi" || name = "arith.muli"

/-- The result of an operation on two integers, before it is wrapped. -/
def combine? (name : OpName) (lhs rhs : Int) : Option Int :=
  if name = "arith.addi" then some (lhs + rhs)
  else if name = "arith.subi" then some (lhs - rhs)
  else if name = "arith.muli" then some (lhs * rhs)
  else none

/-- What an operation on integers computes, before it is wrapped. -/
def value? (env : String → Int) (head : Head) : Option Int :=
  if head.name = "arith.constant"
    then ((head.attributes.get? "value").bind Attribute.integer?).map Int64.toInt
  else
    match head.operands with
    | [lhs, rhs] => combine? head.name (env lhs.name) (env rhs.name)
    | _ => none

/-- The environment behind an operation. What no arithmetic defines has the value that `given`
assigns to it. -/
def define (given : String → Int) (env : String → Int) (head : Head) : String → Int := fun name =>
  match head.results.find? (·.name = name) with
  | some result => result.ty.wrap ((value? env head).getD (given name))
  | none => env name

/-- The values of all results when the operations are evaluated in order. -/
def evaluate (given : String → Int) (heads : List Head) : String → Int :=
  heads.foldl (define given) fun _ => 0

/-- The operation is no arithmetic, or it has the operands, results and attributes that arithmetic
must have. -/
structure WellFormed (head : Head) : Prop where
  constant : head.name = "arith.constant" → head.operands = []
    ∧ ∃ result value, head.results = [result]
    ∧ result.ty.IsWord ∧ head.attributes.get? "value" = some (.integer value result.ty)
    ∧ result.ty.truncate value = value
  binary : head.name = "arith.addi" ∨ head.name = "arith.subi" ∨ head.name = "arith.muli" →
    ∃ lhs rhs result,
    head.operands = [lhs, rhs] ∧ head.results = [result] ∧ result.ty.IsWord ∧ lhs.ty = result.ty
      ∧ rhs.ty = result.ty

instance (head : Head) : Decidable (WellFormed head) :=
  have : Decidable (∃ result value, head.results = [result] ∧ result.ty.IsWord
      ∧ head.attributes.get? "value" = some (.integer value result.ty)
      ∧ result.ty.truncate value = value) :=
    match hresults : head.results, hvalue : head.attributes.get? "value" with
    | [result], some (.integer value ty) =>
        decidable_of_iff (result.ty.IsWord ∧ ty = result.ty ∧ result.ty.truncate value = value) (by
          constructor
          · rintro ⟨hword, rfl, hcanonical⟩
            exact ⟨result, value, rfl, hword, rfl, hcanonical⟩
          · rintro ⟨_, _, ⟨⟩, hword, ⟨⟩, hcanonical⟩
            exact ⟨hword, rfl, hcanonical⟩)
    | [_], some (.float _ _) | [_], some (.bool _) | [_], some (.string _) | [_], some (.symbol _)
        | [_], some (.type _)
    | [_], none | [], _ | _ :: _ :: _, _ => isFalse (by simp)
  have : Decidable (∃ lhs rhs result, head.operands = [lhs, rhs] ∧ head.results = [result]
    ∧ result.ty.IsWord
      ∧ lhs.ty = result.ty ∧ rhs.ty = result.ty) :=
    match hoperands : head.operands, hresults : head.results with
    | [lhs, rhs], [result] =>
        decidable_of_iff (result.ty.IsWord ∧ lhs.ty = result.ty ∧ rhs.ty = result.ty) (by simp)
    | [_, _], [] | [_, _], _ :: _ :: _ | [], _ | [_], _ | _ :: _ :: _ :: _, _ => isFalse (by simp)
  decidable_of_iff (_ ∧ _) ⟨fun h => ⟨h.1, h.2⟩, fun h => ⟨h.constant, h.binary⟩⟩

/-- The environment gives the results of the operation the values that it computes, or that are
given. -/
def Satisfies (given : String → Int) (env : String → Int) (head : Head) : Prop :=
  ∀ result ∈ head.results, env result.name = result.ty.wrap
    ((value? env head).getD (given result.name))

/-! ### Order -/

/-- The operands of each operation are visible, or results of an operation before it. -/
def Ordered (visible : List String) : List Head → Prop
  | [] => True
  | head :: heads =>
      (∀ operand ∈ head.operands, operand.name ∈ visible)
        ∧ Ordered (head.resultNames ++ visible) heads

variable {visible visible' : List String} {heads more : List Head} {given env env' : String → Int}

theorem Ordered.mono (h : Ordered visible heads) (hsub : visible ⊆ visible') :
    Ordered visible' heads := by
  induction heads generalizing visible visible' with
  | nil => trivial
  | cons head heads ih =>
      refine ⟨fun operand hoperand => hsub (h.1 operand hoperand), ih h.2 fun name hname => ?_⟩
      exact List.mem_append.2 ((List.mem_append.1 hname).imp_right (hsub ·))

theorem Ordered.append (h : Ordered visible heads)
    (h' : Ordered (heads.flatMap Head.resultNames ++ visible) more) :
    Ordered visible (heads ++ more) := by
  induction heads generalizing visible with
  | nil => exact h'
  | cons head heads ih =>
      refine ⟨h.1, ih h.2 (h'.mono fun name hname => ?_)⟩
      rw [List.flatMap_cons, List.append_assoc, List.mem_append, List.mem_append] at hname
      rw [List.mem_append, List.mem_append]
      exact or_left_comm.1 hname

mutual

/-- Scoped operations are ordered when they are listed before what they hold. -/
theorem ordered_of_scoped {visible : List String} :
    {op : Operation} → op.Scoped visible → Ordered visible op.heads
  | ⟨_, none⟩, h => ⟨h, trivial⟩
  | ⟨_, some _⟩, h => ⟨h.1, (ordered_of_scopedAll h.2).mono (List.subset_append_right _ _)⟩

theorem ordered_of_scopedAll {visible : List String} :
    {ops : List Operation} → Operation.ScopedAll visible ops →
      Ordered visible (Operation.headsOfAll ops)
  | [], _ => trivial
  | op :: ops, h => by
      refine (ordered_of_scoped h.1).append ((ordered_of_scopedAll h.2).mono fun name hname => ?_)
      refine List.mem_append.2 ((List.mem_append.1 hname).imp_left fun hown => ?_)
      exact Operation.resultNames_subset_definedNames op hown

end

/-- No operation changes what is visible or what another one defines. -/
structure Apart (visible : List String) (heads : List Head) : Prop where
  nodup : (heads.flatMap Head.resultNames).Nodup
  disjoint : ∀ name ∈ visible, name ∉ heads.flatMap Head.resultNames

theorem Apart.tail {head : Head} (h : Apart visible (head :: heads)) :
    Apart (head.resultNames ++ visible) heads := by
  obtain ⟨hnodup, hdisjoint⟩ := h
  rw [List.flatMap_cons] at hnodup hdisjoint
  obtain ⟨-, hnodup, hapart⟩ := List.nodup_append.1 hnodup
  refine ⟨hnodup, fun name hname hmem => ?_⟩
  rcases List.mem_append.1 hname with hown | hname
  · exact hapart name hown name hmem rfl
  · exact hdisjoint name hname (List.mem_append_right _ hmem)

/-- Operations tell something of their results, in view of what has been told of their operands. -/
structure Telling {α : Type} (step : (String → α) → Head → String → α) : Prop where
  elsewhere : ∀ env head name, name ∉ head.resultNames → step env head name = env name
  congr : ∀ env env' head, (∀ operand ∈ head.operands, env operand.name = env' operand.name) →
    ∀ name ∈ head.resultNames, step env head name = step env' head name

section

variable {α : Type} {step : (String → α) → Head → String → α} {told : String → α}

theorem Telling.foldl_of_not_mem (h : Telling step) {name : String}
    (hname : name ∉ heads.flatMap Head.resultNames) :
    heads.foldl step told name = told name := by
  induction heads generalizing told with
  | nil => rfl
  | cons head heads ih =>
      rw [List.flatMap_cons, List.mem_append, not_or] at hname
      rw [List.foldl_cons, ih hname.2, h.elsewhere told head name hname.1]

/-- Every operation finds its operands and leaves its results as they are in the end. -/
theorem Telling.foldl_of_mem (h : Telling step) (hordered : Ordered visible heads)
    (hapart : Apart visible heads) :
    ∀ head ∈ heads, ∀ name ∈ head.resultNames, heads.foldl step told name
      = step (heads.foldl step told) head name := by
  induction heads generalizing visible told with
  | nil => nofun
  | cons first heads ih =>
      intro head hhead name hname
      rcases List.mem_cons.1 hhead with rfl | hhead
      · have hkept : name ∉ heads.flatMap Head.resultNames :=
          hapart.tail.disjoint name (List.mem_append_left _ hname)
        rw [List.foldl_cons, h.foldl_of_not_mem hkept]
        -- What the operands stand for is told before it, and stays.
        refine h.congr _ _ head (fun operand hoperand => ?_) name hname
        have hvisible := hapart.disjoint operand.name (hordered.1 operand hoperand)
        rw [List.flatMap_cons, List.mem_append, not_or] at hvisible
        rw [h.foldl_of_not_mem hvisible.2, h.elsewhere told head operand.name hvisible.1]
      · exact ih hordered.2 hapart.tail head hhead name hname

end

theorem value?_congr {head : Head}
    (h : ∀ operand ∈ head.operands, env operand.name = env' operand.name) :
    value? env head = value? env' head := by
  unfold value?
  split
  · rfl
  · split
    next lhs rhs hoperands =>
      rw [hoperands] at h
      rw [h lhs List.mem_cons_self, h rhs (List.mem_cons_of_mem _ List.mem_cons_self)]
    next => rfl

theorem define_of_not_mem {head : Head} {name : String} (h : name ∉ head.resultNames) :
    define given env head name = env name := by
  unfold define
  have hnone : head.results.find? (·.name = name) = none := by
    refine List.find?_eq_none.2 fun result hresult heq => h ?_
    exact List.mem_map.2 ⟨result, hresult, of_decide_eq_true heq⟩
  rw [hnone]

theorem define_of_mem {head : Head} (hnodup : head.resultNames.Nodup) {result : Value}
    (h : result ∈ head.results) :
    define given env head result.name = result.ty.wrap
      ((value? env head).getD (given result.name)) := by
  unfold define
  cases hfind : head.results.find? (·.name = result.name) with
  | none => exact absurd (List.find?_eq_none.1 hfind result h) (by simp)
  | some found =>
      have hname : found.name = result.name := by simpa using List.find?_some hfind
      have hsame : found = result := List.inj_on_of_nodup_map hnodup
        (List.mem_of_find?_eq_some hfind) h hname
      rw [hsame]

theorem telling_define : Telling (define given) where
  elsewhere env head name hname := define_of_not_mem hname
  congr env env' head hoperands name hname := by
    unfold define
    rw [value?_congr hoperands]
    split
    next => rfl
    next hnone =>
      obtain ⟨result, hresult, hsame⟩ := List.mem_map.1 hname
      exact absurd (decide_eq_true hsame) (List.find?_eq_none.1 hnone result hresult)

theorem evaluate_of_not_mem {name : String} (h : name ∉ heads.flatMap Head.resultNames) :
    evaluate given heads name = 0 :=
  telling_define.foldl_of_not_mem h

theorem satisfies_foldl (hordered : Ordered visible heads) (hapart : Apart visible heads) :
    ∀ head ∈ heads, Satisfies given (heads.foldl (define given) env) head := by
  intro head hhead result hresult
  have hnodup := (List.nodup_flatMap.1 hapart.nodup).1 head hhead
  rw [telling_define.foldl_of_mem hordered hapart head hhead result.name (List.mem_map_of_mem hresult)]
  exact define_of_mem hnodup hresult

/-- There is one environment only in which all operations have the values that they compute. -/
theorem foldl_eq_of_satisfies (hordered : Ordered visible heads) (hapart : Apart visible heads)
    (hvisible : ∀ name ∈ visible, env name = env' name)
    (hsatisfies : ∀ head ∈ heads, Satisfies given env' head) :
    ∀ name ∈ visible ++ heads.flatMap Head.resultNames,
      heads.foldl (define given) env name = env' name := by
  induction heads generalizing visible env with
  | nil =>
      intro name hname
      rw [List.flatMap_nil, List.append_nil] at hname
      exact hvisible name hname
  | cons head heads ih =>
      intro name hname
      have hown := hapart.nodup
      rw [List.flatMap_cons] at hown
      refine ih hordered.2 hapart.tail (fun name hname => ?_) (fun other hother =>
        hsatisfies other (List.mem_cons_of_mem _ hother)) name ?_
      · rcases List.mem_append.1 hname with hresult | hname
        · obtain ⟨result, hmem, rfl⟩ := List.mem_map.1 hresult
          have hvalue : value? env head = value? env' head :=
            value?_congr fun operand hoperand => hvisible operand.name (hordered.1 operand hoperand)
          rw [define_of_mem (List.nodup_append.1 hown).1 hmem, hvalue]
          exact (hsatisfies head List.mem_cons_self result hmem).symm
        · have hother : name ∉ head.resultNames := fun hmem =>
            hapart.disjoint name hname (List.mem_flatMap.2 ⟨head, List.mem_cons_self, hmem⟩)
          rw [define_of_not_mem hother]
          exact hvisible name hname
      · rw [List.flatMap_cons, ← List.append_assoc, List.mem_append, List.mem_append] at hname
        rw [List.mem_append, List.mem_append]
        exact hname.imp_left or_comm.1

end Arith

end DialectIR
