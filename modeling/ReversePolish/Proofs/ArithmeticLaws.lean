import ReversePolish.Arithmetic

namespace ReversePolish

namespace Value

def IsScalar : Value → Prop
  | .number _ | .boolean _ => True
  | _ => False

variable {v : Value} {cause : Cause}

theorem category_toNumber (h : v.toNumber = .error cause) : cause.category = .type := by
  cases v with
  | number y => cases h
  | _ =>
    obtain rfl := Except.error.inj h
    rfl

theorem category_toInteger (h : v.toInteger = .error cause) : cause.category = .type := by
  cases v with
  | number x =>
    simp only [toInteger, toNumber, bind, Except.bind] at h
    split at h
    · obtain rfl := Except.error.inj h
      rfl
    · split at h
      · cases h
      · obtain rfl := Except.error.inj h
        rfl
  | _ =>
    obtain rfl := Except.error.inj h
    rfl

end Value

namespace Operation

variable {h : Heap} {op : Operation} {v w u : Value} {x y : Float} {vs : List Value} {cause : Cause}

theorem isScalar_applyUnary (hv : op.applyUnary w = .ok v) : v.IsScalar := by
  cases w with
  | number x =>
    cases op with
    | reciprocal =>
      change (if x == 0.0 then _ else _) = _ at hv
      split at hv
      · cases hv
      · obtain rfl := Except.ok.inj hv
        trivial
    | abs =>
      obtain rfl := Except.ok.inj hv
      trivial
    | _ => cases hv
  | _ => cases hv

theorem isScalar_applyNumbers (hv : op.applyNumbers x y = .ok v) : v.IsScalar := by
  cases op with
  | pow | div | mod =>
    simp only [applyNumbers] at hv
    split at hv
    · cases hv
    · obtain rfl := Except.ok.inj hv
      trivial
  | add | mul | sub | gt | ge | lt | le =>
    obtain rfl := Except.ok.inj hv
    trivial
  | _ => cases hv

theorem applyBinary_eq (hop : op ≠ .eq ∧ op ≠ .ne) :
    op.applyBinary h w u = (do
      let x ← w.toNumber
      let y ← u.toNumber
      op.applyNumbers x y) := by
  cases op with
  | eq => exact absurd rfl hop.1
  | ne => exact absurd rfl hop.2
  | _ => rfl

theorem isScalar_applyBinary (hv : op.applyBinary h w u = .ok v) : v.IsScalar := by
  by_cases hop : op ≠ .eq ∧ op ≠ .ne
  · rw [applyBinary_eq hop] at hv
    cases w with
    | number x =>
      cases u with
      | number y => exact isScalar_applyNumbers (x := x) (y := y) hv
      | _ => cases hv
    | _ => cases hv
  · cases op with
    | eq | ne =>
      obtain rfl := Except.ok.inj hv
      trivial
    | _ => exact absurd (by simp) hop

theorem isScalar_applyPure (hv : op.applyPure h vs = .ok v) : v.IsScalar := by
  match vs with
  | [] => cases hv
  | [w] => exact isScalar_applyUnary (w := w) hv
  | [w, u] => exact isScalar_applyBinary (w := w) (u := u) hv
  | _ :: _ :: _ :: _ => cases hv

inductive Refuses (op : Operation) (found : Nat) : Cause → Prop
  | type {c : Cause} : c.category = .type → Refuses op found c
  | arithmetic {c : Cause} : c.category = .arithmetic → Refuses op found c
  | arity : (op.isPure = true → found ≠ op.arity) → Refuses op found (.arityMismatch op found)

theorem refuses_applyUnary (hv : op.applyUnary w = .error cause) : op.Refuses 1 cause := by
  match hw : w.toNumber with
  | .error e =>
    simp only [applyUnary, hw] at hv
    obtain rfl := Except.error.inj hv
    exact .type (Value.category_toNumber hw)
  | .ok x =>
    simp only [applyUnary, hw] at hv
    cases op with
    | reciprocal =>
      change (if x == 0.0 then _ else _) = _ at hv
      split at hv
      · obtain rfl := Except.error.inj hv
        exact .arithmetic rfl
      · cases hv
    | abs => cases hv
    | _ =>
      obtain rfl := Except.error.inj hv
      exact .arity (by decide)

theorem refuses_applyNumbers (hne : op ≠ .eq ∧ op ≠ .ne)
    (hv : op.applyNumbers x y = .error cause) : op.Refuses 2 cause := by
  cases op with
  | pow | div | mod =>
    simp only [applyNumbers] at hv
    split at hv
    · obtain rfl := Except.error.inj hv
      exact .arithmetic rfl
    · cases hv
  | add | mul | sub | gt | ge | lt | le => cases hv
  | eq => exact absurd rfl hne.1
  | ne => exact absurd rfl hne.2
  | _ =>
    obtain rfl := Except.error.inj hv
    exact .arity (by decide)

theorem refuses_applyBinary (hv : op.applyBinary h w u = .error cause) : op.Refuses 2 cause := by
  by_cases hne : op ≠ .eq ∧ op ≠ .ne
  · rw [applyBinary_eq hne] at hv
    match hw : w.toNumber, hu : u.toNumber with
    | .error e, _ =>
      rw [hw] at hv
      obtain rfl := Except.error.inj hv
      exact .type (Value.category_toNumber hw)
    | .ok x, .error e =>
      rw [hw, hu] at hv
      obtain rfl := Except.error.inj hv
      exact .type (Value.category_toNumber hu)
    | .ok x, .ok y =>
      rw [hw, hu] at hv
      exact refuses_applyNumbers hne (x := x) (y := y) hv
  · cases op with
    | eq | ne => cases hv
    | _ => exact absurd (by simp) hne

theorem refuses_applyPure (hv : op.applyPure h vs = .error cause) : op.Refuses vs.length cause := by
  match vs with
  | [] =>
    obtain rfl := Except.error.inj hv
    exact .arity (by cases op <;> decide)
  | [w] => exact refuses_applyUnary (w := w) hv
  | [w, u] => exact refuses_applyBinary (w := w) (u := u) hv
  | _ :: _ :: _ :: _ =>
    obtain rfl := Except.error.inj hv
    refine .arity ?_
    cases op <;> simp [isPure, arity]

end Operation

end ReversePolish
