import L2.SelfHost.PlacedIntrinsics
import L2.SelfHost.Unshared

/-!
# Stores that are skipped

The generator of a store with an offset does nothing at all if the offset is not a signed byte,
so what is below such a store is initialized and not generated.  Every other intrinsic generates
all the jumps that are below it.
-/

namespace L2.SelfHost

open X86 (Word)
open Graph

variable {p : Program} {inits : List Intrinsics} {n w : Code} {st F : Store}

/-! ## What an intrinsic leaves out -/

/-- The invocation stores at an offset that is not a signed byte, and nothing is generated for
it. -/
def Skipped (p : Program) (inits : List Intrinsics) (n : Code) : Prop :=
  inits ≠ [] ∧ ∃ name base offset value,
    matchSetBaseOffset (n.view (Store.initial p)) = some (name, base, offset, value) ∧
      name ∈ setNames ∧ sbyte offset = false

theorem initialize_cases {n : Expr} {g : Generator}
    (h : initializeArithmeticIntrinsics n = some g) :
    (g = .getBaseOffset ∧ ∃ q, matchGetBaseOffset n = some q) ∨
      (g = .setBaseOffset ∧ ∃ name base offset value,
        matchSetBaseOffset n = some (name, base, offset, value) ∧ name ∈ setNames) ∨
      (g = .unary ∧ ∃ q, matchUndefinedUnaryInvoke n = some q) ∨
      (g = .rightImm ∧ ∃ q, matchUndefinedBinaryRightImmInvoke n = some q) ∨
      g = .binary ∧ ∃ q, matchUndefinedBinaryInvoke n = some q := by
  have hget : initializeGetBaseOffset n = some g →
      g = .getBaseOffset ∧ ∃ q, matchGetBaseOffset n = some q := by
    unfold initializeGetBaseOffset
    split
    · next name base offset hq =>
      intro h
      exact ⟨(Option.some.inj (Option.ite_none_right_eq_some.mp h).2).symm, _, hq⟩
    · exact nofun
  have hset : initializeSetBaseOffset n = some g → g = .setBaseOffset ∧
      ∃ name base offset value,
        matchSetBaseOffset n = some (name, base, offset, value) ∧ name ∈ setNames := by
    unfold initializeSetBaseOffset
    split
    · next name base offset value hq =>
      intro h
      obtain ⟨hname, h⟩ := Option.ite_none_right_eq_some.mp h
      exact ⟨(Option.some.inj h).symm, _, _, _, _, hq, hname⟩
    · exact nofun
  have hunary : initializeUnary n = some g →
      g = .unary ∧ ∃ q, matchUndefinedUnaryInvoke n = some q := by
    unfold initializeUnary
    split
    · next name arg1 hq =>
      intro h
      exact ⟨(Option.some.inj (Option.ite_none_right_eq_some.mp h).2).symm, _, hq⟩
    · exact nofun
  have hright : initializeRightImm n = some g →
      g = .rightImm ∧ ∃ q, matchUndefinedBinaryRightImmInvoke n = some q := by
    unfold initializeRightImm
    split
    · next name arg1 arg2 hq =>
      intro h
      refine ⟨?_, _, hq⟩
      split at h
      · exact (Option.some.inj h).symm
      · split at h
        · exact (Option.some.inj (Option.ite_none_right_eq_some.mp h).2).symm
        · split at h
          · exact (Option.some.inj (Option.ite_none_right_eq_some.mp h).2).symm
          · cases h
    · exact nofun
  have hbinary : initializeBinary n = some g →
      g = .binary ∧ ∃ q, matchUndefinedBinaryInvoke n = some q := by
    unfold initializeBinary
    split
    · next name arg1 arg2 hq =>
      intro h
      exact ⟨(Option.some.inj (Option.ite_none_right_eq_some.mp h).2).symm, _, hq⟩
    · exact nofun
  unfold initializeArithmeticIntrinsics at h
  simp only [Option.orElse_eq_orElse, Option.orElse_eq_or, Option.or_eq_some_iff] at h
  rcases h with h | ⟨-, h | ⟨-, h | ⟨-, h | ⟨-, h⟩⟩⟩⟩
  · exact .inl (hget h)
  · exact .inr (.inl (hset h))
  · exact .inr (.inr (.inl (hunary h)))
  · exact .inr (.inr (.inr (.inl (hright h))))
  · exact .inr (.inr (.inr (.inr (hbinary h))))

/-- In an initialized program the same stores are skipped. -/
theorem skipped_iff (href : SameReferences (Store.initial p) F) : Skipped p inits n ↔
    inits ≠ [] ∧ ∃ name base offset value,
      matchSetBaseOffset (n.view F) = some (name, base, offset, value) ∧
        name ∈ setNames ∧ sbyte offset = false := by
  have key : ∀ x y : Option (String × Expr × Word × Expr),
      x.map (fun q => (q.1, q.2.2.1)) = y.map (fun q => (q.1, q.2.2.1)) →
      (∃ name base offset value, y = some (name, base, offset, value) ∧
        name ∈ setNames ∧ sbyte offset = false) →
      ∃ name base offset value, x = some (name, base, offset, value) ∧
        name ∈ setNames ∧ sbyte offset = false := by
    rintro x y hxy ⟨name, base, offset, value, rfl, hname, hwide⟩
    obtain ⟨⟨name', base', offset', value'⟩, rfl, heq⟩ := Option.map_eq_some_iff.mp hxy
    cases heq
    exact ⟨_, base', _, value', rfl, hname, hwide⟩
  have hview := matchSetBaseOffset_view href n
  exact and_congr_right fun _ => ⟨key _ _ hview, key _ _ hview.symm⟩

theorem matchSetBaseOffset_some {n base value : Expr} {name : String} {offset : Word}
    (h : matchSetBaseOffset n = some (name, base, offset, value)) :
    ∃ address, matchUndefinedInvoke n = some (name, [address, value]) ∧
      matchBaseOffset address = some (base, offset) := by
  unfold matchSetBaseOffset at h
  split at h
  · next name' address value' hq =>
    obtain ⟨⟨base', offset'⟩, hb, heq⟩ := Option.map_eq_some_iff.mp h
    cases heq
    exact ⟨address, hq, hb⟩
  · cases h

theorem initialize_setBaseOffset {n base value : Expr} {name : String} {offset : Word}
    (h : matchSetBaseOffset n = some (name, base, offset, value)) (hname : name ∈ setNames) :
    initializeArithmeticIntrinsics n = some .setBaseOffset := by
  obtain ⟨address, hq, _⟩ := matchSetBaseOffset_some h
  have hbinary : matchUndefinedBinaryInvoke n = some (name, address, value) := by
    unfold matchUndefinedBinaryInvoke
    rw [hq]
  have hset : initializeSetBaseOffset n = some .setBaseOffset := by
    unfold initializeSetBaseOffset
    rw [h]
    exact if_pos hname
  rw [initialize_binary_eq hbinary, hset]
  rfl

/-- What has the views of an undefined name and of arguments is an invocation. -/
theorem eq_invoke {q : String × List Expr} (h : matchUndefinedInvoke (n.view st) = some q) :
    ∃ k target arguments, n = .invoke k target arguments := by
  cases n with
  | invoke k target arguments => exact ⟨k, target, arguments, rfl⟩
  | literal _ _ | symbol _ _ | storage _ _ _ | function _ _ _ _ | continuation _ _ _ _
  | withExpr _ _ _ | jump _ _ _ | ifExpr _ _ _ _ | constrain _ _ => cases h

/-- The address of an access with an offset is a sum. -/
theorem address_matches {g : Generator} {a : Code}
    (h : initializeArithmeticIntrinsics (n.view st) = some g)
    (hg : g = .getBaseOffset ∨ g = .setBaseOffset) (ha : n.arguments.head? = some a) :
    matchBaseOffset (a.view st) ≠ none := by
  have key : ∀ name es, matchUndefinedInvoke (n.view st) = some (name, es) →
      es.head? = some (a.view st) := by
    intro name es hq
    obtain ⟨k, target, arguments, rfl⟩ := eq_invoke hq
    rw [matchUndefinedInvoke_invoke hq]
    cases arguments with
    | nil => cases ha
    | cons a' rest =>
      cases ha
      rfl
  rcases initialize_cases h with ⟨rfl, q, hm⟩ | ⟨rfl, name, base, offset, value, hm, -⟩ |
    ⟨rfl, -⟩ | ⟨rfl, -⟩ | ⟨rfl, -⟩
  · unfold matchGetBaseOffset at hm
    split at hm
    · next name address hq =>
      obtain ⟨_, hb, _⟩ := Option.map_eq_some_iff.mp hm
      rw [← Option.some.inj (key _ _ hq), hb]
      exact Option.some_ne_none _
    · cases hm
  · obtain ⟨address, hq, hb⟩ := matchSetBaseOffset_some hm
    rw [← Option.some.inj (key _ _ hq), hb]
    exact Option.some_ne_none _
  · rcases hg with hg | hg <;> cases hg
  · rcases hg with hg | hg <;> cases hg
  · rcases hg with hg | hg <;> cases hg

namespace Skipped

variable (h : Skipped p inits n)

include h

theorem exists_invoke : ∃ k target arguments, n = .invoke k target arguments := by
  obtain ⟨-, name, base, offset, value, hm, -⟩ := h
  obtain ⟨address, hq, -⟩ := matchSetBaseOffset_some hm
  exact eq_invoke hq

/-- It is no sum. -/
theorem matchBaseOffset_eq (href : SameReferences (Store.initial p) F) :
    matchBaseOffset (n.view F) = none := by
  obtain ⟨-, name, base, offset, value, hm, hname, -⟩ := (skipped_iff href).mp h
  obtain ⟨address, hq, -⟩ := matchSetBaseOffset_some hm
  unfold matchBaseOffset
  rw [hq]
  have hne : name ≠ "+" := by
    rintro rfl
    revert hname
    decide
  simp [hne]

/-- Its generator calls nothing. -/
theorem expressionsOf_eq_nil (hp : p.WellFormed) {fuel : Nat}
    (hF : initializeProgram p inits fuel = some F) (hn : n ∈ p.nodes) {raw : Nat} {ps : List Piece}
    (hps : pieces p F raw n = some ps) : expressionsOf ps = [] := by
  obtain ⟨href, hplain⟩ := generator_invoke hp hF
  obtain ⟨hinits, name, base, offset, value, hm, hname, hwide⟩ := (skipped_iff href).mp h
  have hset := initialize_setBaseOffset hm hname
  obtain ⟨k, target, arguments, rfl⟩ := h.exists_invoke
  obtain ⟨g, hg, hps⟩ := Option.bind_eq_some_iff.mp hps
  cases g with
  | invoke =>
    have hnone := hplain _ hn hg
    obtain ⟨⟨⟩, rest, rfl⟩ := List.exists_cons_of_ne_nil hinits
    unfold intrinsicOf at hnone
    rw [List.findSome?_cons, hset] at hnone
    cases hnone
  | intrinsic g =>
    have hsame := (located_initializeProgram hp hF).intrinsic _ hn g hg
    rw [hset] at hsame
    cases hsame
    cases hps
    rw [expressionsOf_intrinsic]
    unfold intrinsicOperands
    rw [hm]
    simp only [Option.any_some, hwide, Bool.false_eq_true, if_false]
    split
    · rfl
    · rfl
    · rfl
  | _ => cases hps

end Skipped

/-! ## What the generators hold -/

theorem isSymbol_of_match {k : NodeId} {target : Code} {arguments : List Code}
    {q : String × List Expr}
    (h : matchUndefinedInvoke ((Code.invoke k target arguments).view st) = some q) :
    target.isSymbol = true := by
  cases target with
  | symbol _ _ => rfl
  | literal _ _ | storage _ _ _ | function _ _ _ _ | continuation _ _ _ _ | withExpr _ _ _
  | invoke _ _ _ | jump _ _ _ | ifExpr _ _ _ _ | constrain _ _ => cases h

theorem match_of_initialize {k : NodeId} {target : Code} {arguments : List Code} {g : Generator}
    (h : initializeArithmeticIntrinsics ((Code.invoke k target arguments).view st) = some g) :
    ∃ name, matchUndefinedInvoke ((Code.invoke k target arguments).view st) =
      some (name, viewArguments st arguments) := by
  cases hq : matchUndefinedInvoke ((Code.invoke k target arguments).view st) with
  | some q => exact ⟨q.1, congrArg some (Prod.ext rfl (matchUndefinedInvoke_invoke hq))⟩
  | none =>
    rcases initialize_cases h with ⟨_, q, h⟩ | ⟨_, _, _, _, _, h, _⟩ | ⟨_, q, h⟩ | ⟨_, q, h⟩ |
      ⟨_, q, h⟩
    · simp [matchGetBaseOffset, hq] at h
    · simp [matchSetBaseOffset, hq] at h
    · simp [matchUndefinedUnaryInvoke, hq] at h
    · simp [matchUndefinedBinaryRightImmInvoke, hq] at h
    · simp [matchUndefinedBinaryInvoke, hq] at h

section

variable {j : Code} (hj : j.directTarget ≠ none)

include hj

theorem Code.notMem_leaf (hw : w.isSymbol = true ∨ w.isLiteral = true) : j ∉ w.nodes := by
  intro h
  rcases Code.mem_nodes_iff.mp h with h | rfl
  · cases w with
    | symbol _ _ | literal _ _ => cases h
    | storage _ _ _ | function _ _ _ _ | continuation _ _ _ _ | withExpr _ _ _ | invoke _ _ _
    | jump _ _ _ | ifExpr _ _ _ _ | constrain _ _ => rcases hw with hw | hw <;> cases hw
  · cases j with
    | jump _ _ _ => rcases hw with hw | hw <;> cases hw
    | literal _ _ | symbol _ _ | storage _ _ _ | function _ _ _ _ | continuation _ _ _ _
    | withExpr _ _ _ | invoke _ _ _ | ifExpr _ _ _ _ | constrain _ _ => exact hj rfl

/-- A jump below an invocation of a symbol is in one of the arguments. -/
theorem Code.mem_arguments {target : Code} {arguments : List Code}
    (ht : target.isSymbol = true) (h : j ∈ Forest.nodesOf (target :: arguments)) :
    ∃ a ∈ arguments, j ∈ a.nodes := by
  obtain ⟨a, ha, hja⟩ := Forest.mem_nodesOf.mp h
  rcases List.mem_cons.mp ha with rfl | ha
  · exact absurd hja (Code.notMem_leaf hj (.inl ht))
  · exact ⟨a, ha, hja⟩

/-- A jump in an address with an offset is in the base. -/
theorem mem_base {a base : Code} (hm : matchBaseOffset (a.view st) ≠ none)
    (hbase : baseOf a = some base) (h : j ∈ a.nodes) : j ∈ base.nodes := by
  have hsymbol : ∀ k target arguments, a = .invoke k target arguments →
      target.isSymbol = true := by
    rintro k target arguments rfl
    unfold matchBaseOffset at hm
    cases hq : matchUndefinedInvoke ((Code.invoke k target arguments).view st) with
    | none => exact absurd (by rw [hq]) hm
    | some q => exact isSymbol_of_match hq
  have hne : ∀ k target arguments, a = .invoke k target arguments → j ≠ a := by
    rintro k target arguments rfl rfl
    exact hj rfl
  unfold baseOf at hbase
  split at hbase
  · next k target lit value base' =>
    cases hbase
    have hin := (Code.mem_nodes_iff.mp h).resolve_right (hne _ _ _ rfl)
    obtain ⟨x, hx, hjx⟩ := Code.mem_arguments hj (hsymbol _ _ _ rfl) hin
    rcases List.mem_pair.mp hx with rfl | rfl
    · exact absurd hjx (Code.notMem_leaf hj (.inr rfl))
    · exact hjx
  · next k target base' lit value _ =>
    cases hbase
    have hin := (Code.mem_nodes_iff.mp h).resolve_right (hne _ _ _ rfl)
    obtain ⟨x, hx, hjx⟩ := Code.mem_arguments hj (hsymbol _ _ _ rfl) hin
    rcases List.mem_pair.mp hx with rfl | rfl
    · exact hjx
    · exact absurd hjx (Code.notMem_leaf hj (.inr rfl))
  · cases hbase

/-- A jump below an intrinsic is in one of the expressions that it starts with, unless the
intrinsic is a store that is skipped. -/
theorem intrinsicOperands_holds {k : NodeId} {target : Code} {arguments : List Code} {g : Generator}
    {call : InitCall} (hcall : initializeIntrinsic st (.invoke k target arguments) g arguments =
      some call)
    (hg : initializeArithmeticIntrinsics ((Code.invoke k target arguments).view F) = some g)
    (hwide : ∀ name base offset value, matchSetBaseOffset
      ((Code.invoke k target arguments).view F) = some (name, base, offset, value) →
        name ∈ setNames → sbyte offset = true)
    (h : j ∈ Forest.nodesOf (target :: arguments)) :
    ∃ x ∈ intrinsicOperands F g (.invoke k target arguments) arguments, j ∈ x.nodes := by
  obtain ⟨name, hq⟩ := match_of_initialize hg
  obtain ⟨a, ha, hja⟩ := Code.mem_arguments hj (isSymbol_of_match hq) h
  rcases initialize_cases hg with ⟨rfl, q, hm⟩ | ⟨rfl, name', base, offset, value, hm, hname⟩ |
    ⟨rfl, _⟩ | ⟨rfl, q, hm⟩ | ⟨rfl, _⟩
  · unfold matchGetBaseOffset at hm
    rw [hq] at hm
    match arguments with
    | [] | _ :: _ :: _ => cases hm
    | [arg1] =>
      obtain ⟨base, hbase, _⟩ := Option.map_eq_some_iff.mp hcall
      obtain ⟨q', hm, _⟩ := Option.map_eq_some_iff.mp hm
      rw [List.mem_singleton.mp ha] at hja
      exact ⟨base, Option.mem_toList.mpr hbase,
        mem_base hj (hm ▸ Option.some_ne_none _) hbase hja⟩
  · have hbyte := hwide _ _ _ _ hm hname
    obtain ⟨arg1, arg2, rfl⟩ : ∃ arg1 arg2, arguments = [arg1, arg2] := by
      match arguments with
      | [] | [_] | _ :: _ :: _ :: _ => cases hcall
      | [arg1, arg2] => exact ⟨arg1, arg2, rfl⟩
    have hoperands : intrinsicOperands F .setBaseOffset (.invoke k target [arg1, arg2])
        [arg1, arg2] = arg2 :: (baseOf arg1).toList := by
      unfold intrinsicOperands
      simp only [hm, Option.any_some, hbyte, if_true]
    rw [hoperands]
    rcases List.mem_pair.mp ha with rfl | rfl
    · obtain ⟨base, hbase, _⟩ := Option.map_eq_some_iff.mp hcall
      unfold matchSetBaseOffset at hm
      rw [hq] at hm
      obtain ⟨q', hm, _⟩ := Option.map_eq_some_iff.mp hm
      exact ⟨base, List.mem_cons_of_mem _ (Option.mem_toList.mpr hbase),
        mem_base hj (hm ▸ Option.some_ne_none _) hbase hja⟩
    · exact ⟨a, List.mem_cons_self, hja⟩
  · match arguments with
    | [] | [_, _] | _ :: _ :: _ :: _ => cases hcall
    | [arg1] => exact ⟨a, ha, hja⟩
  · unfold matchUndefinedBinaryRightImmInvoke at hm
    rw [hq] at hm
    match arguments with
    | [] | [_] | _ :: _ :: _ :: _ => cases hcall
    | [arg1, arg2] =>
      rcases List.mem_pair.mp ha with rfl | rfl
      · exact ⟨a, List.mem_cons_self, hja⟩
      · have hlit : a.isLiteral = true := by
          cases a with
          | literal _ _ => rfl
          | symbol _ _ | storage _ _ _ | function _ _ _ _ | continuation _ _ _ _ | withExpr _ _ _
          | invoke _ _ _ | jump _ _ _ | ifExpr _ _ _ _ | constrain _ _ => cases hm
        exact absurd hja (Code.notMem_leaf hj (.inr hlit))
  · match arguments with
    | [] | [_] | _ :: _ :: _ :: _ => cases hcall
    | [arg1, arg2] => exact ⟨a, ha, hja⟩

end

end L2.SelfHost
