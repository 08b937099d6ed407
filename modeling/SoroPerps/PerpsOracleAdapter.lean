import SoroPerps.PerpsTypes

/-! # The oracle adapter

The admin posts one price per asset; readers get it only while it is fresh. -/
namespace PerpsOracleAdapter

open SorobanHost PerpsTypes

variable {N : Network}

def setOracle (f : OracleStorage → OracleStorage) : Contract N Unit :=
  modify fun w => { w with oracle := f w.oracle }

def initializeOracle (admin : Address) (stalenessThreshold : ℕ) : Contract N Unit := do
  let o := (← get).oracle
  rejectIf (o.admin.isSome = true) .AlreadyInitialized
  rejectIf (stalenessThreshold = 0) .InvalidConfig
  setOracle fun o => { o with admin := some admin, stalenessThreshold := stalenessThreshold }

def setPrice (env : Env) (admin : Address) (asset : ℕ) (price : ℤ) : Contract N Unit := do
  requireAdmin env admin (← get).oracle.admin
  rejectIf (price ≤ 0) .InvalidAmount
  let now := (← get).timestamp
  setOracle fun o => { o with price := o.price.insert asset ⟨price, now⟩ }
  emit (.priceFetched asset price now)

def getPrice (asset : ℕ) : Contract N CachedPrice := do
  let o := (← get).oracle
  let cached ← okOr (o.price.lookup asset) (.contract .StalePrice)
  let age ← subU64 (← get).timestamp cached.timestamp
  rejectIf (o.stalenessThreshold < age) .StalePrice
  pure cached

def getPriceValue (asset : ℕ) : Contract N ℤ := do
  let cached ← getPrice asset
  pure cached.price

def setStalenessThreshold (env : Env) (admin : Address) (threshold : ℕ) : Contract N Unit := do
  requireAdmin env admin (← get).oracle.admin
  rejectIf (threshold = 0) .InvalidConfig
  setOracle fun o => { o with stalenessThreshold := threshold }

inductive Call where
  | initializeOracle (admin : Address) (stalenessThreshold : ℕ)
  | setPrice (admin : Address) (asset : ℕ) (price : ℤ)
  | setStalenessThreshold (admin : Address) (threshold : ℕ)
  deriving DecidableEq, Repr

def invoke (env : Env) : Call → Contract N Unit
  | .initializeOracle admin threshold => initializeOracle admin threshold
  | .setPrice admin asset price => setPrice env admin asset price
  | .setStalenessThreshold admin threshold => setStalenessThreshold env admin threshold

/-- The price on record for an asset, no older than the staleness threshold. -/
def FreshPrice (w : World N) (asset : ℕ) (price : ℤ) : Prop :=
  ∃ c, w.oracle.price.lookup asset = some c ∧ c.price = price ∧
    c.timestamp ≤ w.timestamp ∧ w.timestamp - c.timestamp ≤ w.oracle.stalenessThreshold

section Effects

variable {env : Env} {w w' : World N} {u : Unit}

@[simp] theorem setOracle_ok {f : OracleStorage → OracleStorage} :
    (setOracle f : Contract N Unit).run w = .ok (u, w') ↔
      { w with oracle := f w.oracle } = w' := by
  simp [setOracle]

@[simp] theorem getPriceValue_ok {asset : ℕ} {price : ℤ} :
    (getPriceValue asset : Contract N ℤ).run w = .ok (price, w') ↔
      FreshPrice w asset price ∧ w = w' := by
  constructor
  · intro h
    simp [getPriceValue, getPrice] at h
    obtain ⟨c, hl, hle, ⟨hage, rfl⟩, rfl⟩ := h
    exact ⟨⟨c, hl, rfl, hle, by omega⟩, rfl⟩
  · rintro ⟨⟨c, hl, rfl, hle, hage⟩, rfl⟩
    simp [getPriceValue, getPrice, hl, hle]
    omega

theorem FreshPrice.unique {asset : ℕ} {p q : ℤ} (hp : FreshPrice w asset p)
    (hq : FreshPrice w asset q) : p = q := by
  obtain ⟨c, hc, rfl, -⟩ := hp
  obtain ⟨d, hd, rfl, -⟩ := hq
  rw [Option.mem_unique hc hd]

theorem getPriceValue_error {asset : ℕ} {e : PerpsError}
    (h : (getPriceValue asset : Contract N ℤ).run w = .error (.contract e)) :
    e = .StalePrice := by
  simp [getPriceValue, getPrice] at h
  aesop

theorem setPrice_ok {admin : Address} {asset : ℕ} {price : ℤ} :
    (setPrice env admin asset price : Contract N Unit).run w = .ok (u, w') ↔
      (env.Authorized admin ∧ w.oracle.admin = some admin) ∧ 0 < price ∧
      { w with
        oracle.price := w.oracle.price.insert asset ⟨price, w.timestamp⟩
        events := w.events ++ [.priceFetched asset price w.timestamp] } = w' := by
  simp [setPrice]

def Publishes : Event → Prop
  | .priceFetched .. => True
  | _ => False

/-- The oracle adapter writes its own storage and adds events of its own; only `set_price` changes
a price. -/
theorem invoke_frame {c : Call} (h : (invoke env c : Contract N Unit).run w = .ok (u, w')) :
    ∃ s es, (∀ e ∈ es, Publishes e) ∧ w' = { w with oracle := s, events := w.events ++ es } ∧
      (s.price = w.oracle.price ∨ ∃ admin asset price, c = .setPrice admin asset price) := by
  cases c with
  | initializeOracle admin threshold =>
    simp [invoke, initializeOracle] at h
    obtain ⟨-, -, rfl⟩ := h
    exact ⟨{ w.oracle with admin := some admin, stalenessThreshold := threshold }, [], by simp,
      by simp, .inl rfl⟩
  | setPrice admin asset price =>
    obtain ⟨-, -, rfl⟩ := setPrice_ok.mp h
    exact ⟨_, _, by simp [Publishes], rfl, .inr ⟨admin, asset, price, rfl⟩⟩
  | setStalenessThreshold admin threshold =>
    simp [invoke, setStalenessThreshold] at h
    obtain ⟨-, -, rfl⟩ := h
    exact ⟨{ w.oracle with stalenessThreshold := threshold }, [], by simp, by simp, .inl rfl⟩

end Effects

end PerpsOracleAdapter
