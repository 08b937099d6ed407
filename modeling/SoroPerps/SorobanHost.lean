import Mathlib.Algebra.Group.Int.Defs
import Mathlib.Algebra.Group.Nat.Defs
import Mathlib.Data.Finset.Basic

/-! # Contract invocations on the Soroban host

A contract call reads and writes the ledger and either returns or fails. A failed call leaves
no trace: the host discards every write it made. Integers are checked, so arithmetic that
leaves the machine range aborts the call instead of wrapping. Storage lifetimes are not
modelled; an archived entry is restored before it is read. -/
namespace SorobanHost

structure Address where
  id : ℕ
  deriving DecidableEq, Repr

/-- Why the host itself ends a call, as opposed to an error code the contract returns. -/
inductive Abort where
  | authorization
  | arithmetic
  | missingValue
  | wrongContract
  | callee (code : Option ℕ)
  deriving DecidableEq, Repr

inductive Failure (ε : Type) where
  | contract (code : ε)
  | host (reason : Abort)
  deriving DecidableEq, Repr

/-- A call over ledger states `σ`. There is no result state when it fails. -/
abbrev Transaction (ε σ α : Type) := StateT σ (Except (Failure ε)) α

variable {ε σ α β : Type}

def fail (f : Failure ε) : Transaction ε σ α := fun _ => .error f

def InI128 (x : ℤ) : Prop := -2 ^ 127 ≤ x ∧ x < 2 ^ 127

instance (x : ℤ) : Decidable (InI128 x) := inferInstanceAs (Decidable (_ ∧ _))

theorem inI128_of_nonneg {x : ℤ} (hx : 0 ≤ x) (hlt : x < 2 ^ 127) : InI128 x := by
  unfold InI128
  omega

def i128 (x : ℤ) : Transaction ε σ ℤ :=
  if InI128 x then pure x else fail (.host .arithmetic)

def divI128 (a b : ℤ) : Transaction ε σ ℤ :=
  if b = 0 then fail (.host .arithmetic) else i128 (a.tdiv b)

def addU64 (a b : ℕ) : Transaction ε σ ℕ :=
  if a + b < 2 ^ 64 then pure (a + b) else fail (.host .arithmetic)

def subU64 (a b : ℕ) : Transaction ε σ ℕ :=
  if b ≤ a then pure (a - b) else fail (.host .arithmetic)

/-- The cast `x as u32` keeps the low 32 bits of the two's complement representation. -/
def asU32 (x : ℤ) : ℕ := (x % 2 ^ 32).toNat

theorem asU32_cast (x : ℤ) : (asU32 x : ℤ) = x % 2 ^ 32 :=
  Int.toNat_of_nonneg (Int.emod_nonneg _ (by decide))

theorem asU32_of_lt {x : ℤ} (hx : 0 ≤ x) (hlt : x < 2 ^ 32) : (asU32 x : ℤ) = x := by
  rw [asU32_cast]
  exact Int.emod_eq_of_lt hx hlt

def rejectIf (c : Prop) [Decidable c] (e : ε) : Transaction ε σ Unit :=
  if c then fail (.contract e) else pure ()

def okOr (o : Option α) (f : Failure ε) : Transaction ε σ α :=
  match o with
  | some a => pure a
  | none => fail f

def unwrap (o : Option α) : Transaction ε σ α := okOr o (.host .missingValue)

/-- What the caller of a failed call ends with. A code travels as a number, so it reads as the
caller's own error of that number, whatever the callee meant by it. -/
def relay (ofCode : ℕ → Option ε) (code : Option ℕ) : Failure ε :=
  match code.bind ofCode with
  | some e => .contract e
  | none => .host (.callee code)

/-- A call of a contract outside the system. It fails with a code of its own or is aborted, and
nobody catches that. -/
def propagate (ofCode : ℕ → Option ε) (outcome : Except (Option ℕ) α) : Transaction ε σ α :=
  match outcome with
  | .ok a => pure a
  | .error code => fail (relay ofCode code)

/-- Who stands behind a call: the contract that made it, and the accounts that signed it.
A signature covers the whole tree of calls below the signed one. -/
structure Env where
  invoker : Option Address
  signers : List Address
  deriving DecidableEq, Repr

def Env.Authorized (env : Env) (a : Address) : Prop := env.invoker = some a ∨ a ∈ env.signers

instance (env : Env) (a : Address) : Decidable (env.Authorized a) :=
  inferInstanceAs (Decidable (_ ∨ _))

/-- The environment of a call made by the contract at `a`. -/
def Env.callFrom (env : Env) (a : Address) : Env := { env with invoker := some a }

@[simp] theorem authorized_callFrom (env : Env) (a b : Address) :
    (env.callFrom a).Authorized b ↔ a = b ∨ b ∈ env.signers := by
  simp [Env.Authorized, Env.callFrom]

def requireAuth (env : Env) (a : Address) : Transaction ε σ Unit :=
  if env.Authorized a then pure () else fail (.host .authorization)

/-- A cross-contract call to address `a` reaches the contract deployed at `expected`. -/
def requireContract (a expected : Address) : Transaction ε σ Unit :=
  if a = expected then pure () else fail (.host .wrongContract)

/-- A token contract, known only through its balances and its transfer function. It refuses a
transfer with a code of its own, or is aborted. -/
structure Token where
  State : Type
  balance : State → Address → ℤ
  transfer : State → Address → Address → ℤ → Except (Option ℕ) State

/-- The token moves exactly the amount asked or fails. -/
structure Token.Exact (T : Token) : Prop where
  balance_nonneg : ∀ s a, 0 ≤ T.balance s a
  amount_nonneg : ∀ s src dst x s', T.transfer s src dst x = .ok s' → 0 ≤ x
  moved : ∀ s src dst x s', T.transfer s src dst x = .ok s' → ∀ a,
    T.balance s' a = T.balance s a - (if a = src then x else 0) + (if a = dst then x else 0)

/-- The token refuses no transfer that the payer can afford and the receiver's balance can take. -/
def Token.Pays (T : Token) : Prop :=
  ∀ s src dst x, 0 ≤ x → x ≤ T.balance s src → InI128 (T.balance s dst + x) →
    ∃ s', T.transfer s src dst x = .ok s'

/-- An amount below zero is refused with code 8, one above the payer's balance with code 10. -/
def moveBalance (s : Address → ℕ) (src dst : Address) (x : ℤ) :
    Except (Option ℕ) (Address → ℕ) :=
  if x < 0 then .error (some 8)
  else if s src < x then .error (some 10)
  else .ok fun a => ((s a : ℤ) - (if a = src then x else 0) + (if a = dst then x else 0)).toNat

theorem moveBalance_ok {s s' : Address → ℕ} {src dst : Address} {x : ℤ}
    (h : moveBalance s src dst x = .ok s') : 0 ≤ x ∧ ∀ a,
      (s' a : ℤ) = s a - (if a = src then x else 0) + (if a = dst then x else 0) := by
  unfold moveBalance at h
  split at h
  · cases h
  · next hneg =>
    split at h
    · cases h
    · next hafford =>
      obtain rfl := Except.ok.inj h
      refine ⟨not_lt.mp hneg, fun a => Int.toNat_of_nonneg ?_⟩
      by_cases ha : a = src
      · subst ha
        split <;> omega
      · rw [if_neg ha]
        split <;> omega

/-- A token that keeps one balance for each address, with nothing else in its state. -/
def ledgerToken : Token where
  State := Address → ℕ
  balance s a := s a
  transfer := moveBalance

theorem ledgerToken_exact : ledgerToken.Exact where
  balance_nonneg _ _ := Int.natCast_nonneg _
  amount_nonneg _ _ _ _ _ h := (moveBalance_ok h).1
  moved _ _ _ _ _ h := (moveBalance_ok h).2

theorem ledgerToken_pays : ledgerToken.Pays := by
  intro s src dst x hx hle _
  have hnegative : ¬ x < 0 := not_lt.mpr hx
  have hshort : ¬ (s src : ℤ) < x := not_lt.mpr hle
  exact ⟨_, (if_neg hnegative).trans (if_neg hshort)⟩

section Sequencing

variable {φ : Type} {x : Except φ α} {k : α → Except φ β} {f : φ}

@[simp] theorem except_pure_ok {a b : α} : (pure a : Except φ α) = .ok b ↔ a = b := by
  simp [pure, Except.pure]

@[simp] theorem except_pure_error {a : α} : ¬ (pure a : Except φ α) = .error f := by
  simp [pure, Except.pure]

@[simp] theorem except_bind_ok {b : β} :
    (x >>= k) = .ok b ↔ ∃ a, x = .ok a ∧ k a = .ok b := by
  cases x with
  | ok a => simp [bind, Except.bind]
  | error g => simp [bind, Except.bind]

/-- A sequence fails where its first failing part does, with that part's failure. -/
@[simp] theorem except_bind_error :
    (x >>= k) = .error f ↔ x = .error f ∨ ∃ a, x = .ok a ∧ k a = .error f := by
  cases x with
  | ok a => simp [bind, Except.bind]
  | error g => simp [bind, Except.bind]

@[simp] theorem except_map_ok {g : α → β} {b : β} :
    (g <$> x) = .ok b ↔ ∃ a, x = .ok a ∧ g a = b := by
  cases x with
  | ok a => simp [Functor.map, Except.map]
  | error g => simp [Functor.map, Except.map]

@[simp] theorem except_map_error {g : α → β} : (g <$> x) = .error f ↔ x = .error f := by
  cases x with
  | ok a => simp [Functor.map, Except.map]
  | error g => simp [Functor.map, Except.map]

theorem returns_of_isOk (h : x.toBool = true) : ∃ a, x = .ok a := by
  cases x with
  | ok a => exact ⟨a, rfl⟩
  | error f => cases h

theorem result_of_toOption {b : β} {g : α → β} (h : x.toOption.map g = some b) :
    ∃ a, x = .ok a ∧ g a = b := by
  cases x with
  | ok a => exact ⟨a, rfl, Option.some.inj h⟩
  | error f => cases h

@[simp] theorem run_fail {f : Failure ε} {s : σ} :
    (fail f : Transaction ε σ α).run s = .error f := rfl

@[simp] theorem run_discard_ok {x : Transaction ε σ α} {s s' : σ} {u : Unit} :
    (discard x : Transaction ε σ Unit).run s = .ok (u, s') ↔ ∃ a, x.run s = .ok (a, s') := by
  change (do let (_, s₁) ← x.run s; pure ((), s₁) : Except (Failure ε) (Unit × σ)) = _ ↔ _
  simp

end Sequencing

section Checks

variable {x m n : ℤ} {a b : ℕ} {c : Prop} [Decidable c] {e : ε} {f : Failure ε} {s s' : σ}
  {env : Env} {p q : Address} {u : Unit}

@[simp] theorem i128_ok {y : ℤ} : (i128 x : Transaction ε σ ℤ).run s = .ok (y, s') ↔
    InI128 x ∧ x = y ∧ s = s' := by
  by_cases h : InI128 x
  · simp [i128, h]
  · simp [i128, h]

@[simp] theorem i128_error : (i128 x : Transaction ε σ ℤ).run s = .error f ↔
    ¬ InI128 x ∧ .host .arithmetic = f := by
  by_cases h : InI128 x
  · simp [i128, h]
  · simp [i128, h]

@[simp] theorem divI128_ok {y : ℤ} : (divI128 m n : Transaction ε σ ℤ).run s = .ok (y, s') ↔
    n ≠ 0 ∧ InI128 (m.tdiv n) ∧ m.tdiv n = y ∧ s = s' := by
  by_cases h : n = 0
  · simp [divI128, h]
  · simp [divI128, h]

@[simp] theorem divI128_error : (divI128 m n : Transaction ε σ ℤ).run s = .error f ↔
    (n = 0 ∨ ¬ InI128 (m.tdiv n)) ∧ .host .arithmetic = f := by
  by_cases h : n = 0
  · simp [divI128, h]
  · simp [divI128, h]

@[simp] theorem addU64_ok {y : ℕ} : (addU64 a b : Transaction ε σ ℕ).run s = .ok (y, s') ↔
    a + b < 2 ^ 64 ∧ a + b = y ∧ s = s' := by
  unfold addU64
  split <;> simp_all

@[simp] theorem addU64_error : (addU64 a b : Transaction ε σ ℕ).run s = .error f ↔
    2 ^ 64 ≤ a + b ∧ .host .arithmetic = f := by
  unfold addU64
  split <;> simp_all

@[simp] theorem subU64_ok {y : ℕ} : (subU64 a b : Transaction ε σ ℕ).run s = .ok (y, s') ↔
    b ≤ a ∧ a - b = y ∧ s = s' := by
  by_cases h : b ≤ a
  · simp [subU64, h]
  · simp [subU64, h]

@[simp] theorem subU64_error : (subU64 a b : Transaction ε σ ℕ).run s = .error f ↔
    a < b ∧ .host .arithmetic = f := by
  by_cases h : b ≤ a
  · simp [subU64, h, not_lt.mpr h]
  · simp [subU64, h, not_le.mp h]

@[simp] theorem rejectIf_ok : (rejectIf c e : Transaction ε σ Unit).run s = .ok (u, s') ↔
    ¬ c ∧ s = s' := by
  by_cases h : c
  · simp [rejectIf, h]
  · simp [rejectIf, h]

@[simp] theorem rejectIf_error : (rejectIf c e : Transaction ε σ Unit).run s = .error f ↔
    c ∧ .contract e = f := by
  by_cases h : c
  · simp [rejectIf, h]
  · simp [rejectIf, h]

@[simp] theorem okOr_ok {o : Option α} {y : α} :
    (okOr o f : Transaction ε σ α).run s = .ok (y, s') ↔ o = some y ∧ s = s' := by
  cases o with
  | none => simp [okOr]
  | some a => simp [okOr]

@[simp] theorem okOr_error {o : Option α} {g : Failure ε} :
    (okOr o f : Transaction ε σ α).run s = .error g ↔ o = none ∧ f = g := by
  cases o with
  | none => simp [okOr]
  | some a => simp [okOr]

@[simp] theorem unwrap_ok {o : Option α} {y : α} :
    (unwrap o : Transaction ε σ α).run s = .ok (y, s') ↔ o = some y ∧ s = s' := okOr_ok

@[simp] theorem unwrap_error {o : Option α} :
    (unwrap o : Transaction ε σ α).run s = .error f ↔
      o = none ∧ .host .missingValue = f := okOr_error

@[simp] theorem propagate_ok {ofCode : ℕ → Option ε} {outcome : Except (Option ℕ) α} {y : α} :
    (propagate ofCode outcome : Transaction ε σ α).run s = .ok (y, s') ↔
      outcome = .ok y ∧ s = s' := by
  cases outcome with
  | ok a => simp [propagate]
  | error f => simp [propagate]

/-- A code that surfaces is the callee's, under the caller's name for it. -/
@[simp] theorem propagate_error {ofCode : ℕ → Option ε} {outcome : Except (Option ℕ) α} :
    (propagate ofCode outcome : Transaction ε σ α).run s = .error (.contract e) ↔
      ∃ code, outcome = .error (some code) ∧ ofCode code = some e := by
  cases outcome with
  | ok a => simp [propagate]
  | error code =>
    cases code with
    | none => simp [propagate, relay]
    | some code => cases h : ofCode code <;> simp [propagate, relay, h]

@[simp] theorem propagate_arithmetic {ofCode : ℕ → Option ε} {outcome : Except (Option ℕ) α} :
    ¬ (propagate ofCode outcome : Transaction ε σ α).run s = .error (.host .arithmetic) := by
  cases outcome with
  | ok a => simp [propagate]
  | error code => cases h : code.bind ofCode <;> simp [propagate, relay, h]

@[simp] theorem requireAuth_ok : (requireAuth env p : Transaction ε σ Unit).run s = .ok (u, s') ↔
    env.Authorized p ∧ s = s' := by
  by_cases h : env.Authorized p
  · simp [requireAuth, h]
  · simp [requireAuth, h]

@[simp] theorem requireAuth_error : (requireAuth env p : Transaction ε σ Unit).run s = .error f ↔
    ¬ env.Authorized p ∧ .host .authorization = f := by
  by_cases h : env.Authorized p
  · simp [requireAuth, h]
  · simp [requireAuth, h]

@[simp] theorem requireContract_ok :
    (requireContract p q : Transaction ε σ Unit).run s = .ok (u, s') ↔ p = q ∧ s = s' := by
  by_cases h : p = q
  · simp [requireContract, h]
  · simp [requireContract, h]

@[simp] theorem requireContract_error :
    (requireContract p q : Transaction ε σ Unit).run s = .error f ↔
      p ≠ q ∧ .host .wrongContract = f := by
  by_cases h : p = q
  · simp [requireContract, h]
  · simp [requireContract, h]

end Checks

end SorobanHost
