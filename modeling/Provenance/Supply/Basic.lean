import Provenance.Supply.Pool
import Provenance.Supply.Config
import Provenance.Key.Generation

/-!
# The key supply

Key generation is slow, so a supply keeps pools of ready-made key pairs, secrets and salts. A request
takes the item that has waited longest and generates one on the spot when the pool is empty; it never
waits. Externally made key pairs can be added to the pool of their profile.
-/

namespace Provenance

/-! ## Pools -/

structure Pools where
  sign64 : Pool PrivateKey
  sign128 : Pool PrivateKey
  sign256 : Pool PrivateKey
  encrypt128 : Pool PrivateKey
  encrypt256 : Pool PrivateKey
  aes128 : Pool String
  aes256 : Pool String
  salt : Pool String

namespace Pools

def empty (targets : PoolSizes) : Pools :=
  ⟨.empty targets.sign64, .empty targets.sign128, .empty targets.sign256, .empty targets.encrypt128,
    .empty targets.encrypt256, .empty targets.aes128, .empty targets.aes256, .empty targets.salt⟩

def sizes (p : Pools) : PoolSizes :=
  ⟨p.sign64.size, p.sign128.size, p.sign256.size, p.encrypt128.size, p.encrypt256.size,
    p.aes128.size, p.aes256.size, p.salt.size⟩

def ofKey (p : Pools) : Profile → Pool PrivateKey
  | .sign64 => p.sign64
  | .sign128 => p.sign128
  | .sign256 => p.sign256
  | .encrypt128 => p.encrypt128
  | .encrypt256 => p.encrypt256

def setKey (p : Pools) (pool : Pool PrivateKey) : Profile → Pools
  | .sign64 => { p with sign64 := pool }
  | .sign128 => { p with sign128 := pool }
  | .sign256 => { p with sign256 := pool }
  | .encrypt128 => { p with encrypt128 := pool }
  | .encrypt256 => { p with encrypt256 := pool }

def ofText (p : Pools) : TextKind → Pool String
  | .salt => p.salt
  | .secret .bits128 => p.aes128
  | .secret .bits256 => p.aes256

def setText (p : Pools) (pool : Pool String) : TextKind → Pools
  | .salt => { p with salt := pool }
  | .secret .bits128 => { p with aes128 := pool }
  | .secret .bits256 => { p with aes256 := pool }

theorem ofKey_setKey (p : Pools) (pool : Pool PrivateKey) (i j : Profile) :
    (p.setKey pool i).ofKey j = if i = j then pool else p.ofKey j := by
  cases i <;> cases j <;> rfl

theorem ofText_setText (p : Pools) (pool : Pool String) (i j : TextKind) :
    (p.setText pool i).ofText j = if i = j then pool else p.ofText j := by
  cases i with
  | salt => cases j with
    | salt => rfl
    | secret s => cases s <;> rfl
  | secret r => cases j with
    | salt => cases r <;> rfl
    | secret s => cases r <;> cases s <;> rfl

theorem ofText_setKey (p : Pools) (pool : Pool PrivateKey) (i : Profile) (j : TextKind) :
    (p.setKey pool i).ofText j = p.ofText j := by
  cases i <;> cases j with
  | salt => rfl
  | secret s => cases s <;> rfl

theorem ofKey_setText (p : Pools) (pool : Pool String) (i : TextKind) (j : Profile) :
    (p.setText pool i).ofKey j = p.ofKey j := by
  cases i with
  | salt => cases j <;> rfl
  | secret r => cases r <;> cases j <;> rfl

end Pools

/-! ## The supply -/

structure KeySupply where
  config : SupplyConfig
  pools : Pools

namespace KeySupply

def new (config : SupplyConfig) : KeySupply := ⟨config, .empty config.targets⟩

def sizes (s : KeySupply) : PoolSizes := s.pools.sizes

def debugText (s : KeySupply) : String :=
  "KeyForge \x7b pools: " ++ s.sizes.debugText ++ " \x7d"

/-! ## Taking items -/

/-- A key pair of the profile: pooled, or generated when the pool is empty. -/
def takeKey (s : KeySupply) (p : Profile) (label : Option String) (e : Entropy) :
    Except KeyError (PrivateKey × KeySupply × Entropy) :=
  match (s.pools.ofKey p).pop with
  | (some k, rest) => .ok (k.relabel label, { s with pools := s.pools.setKey rest p }, e)
  | (none, _) => do
    let (k, e) ← PrivateKey.generate p e
    return (k.relabel label, s, e)

/-- A key pair for a use at a level. -/
def takeKeyFor (s : KeySupply) (use : KeyUse) (level : Nat) (label : Option String) (e : Entropy) :
    Except KeyError (PrivateKey × KeySupply × Entropy) := do
  let p ← Profile.forLevel use level
  s.takeKey p label e

def generateText (kind : TextKind) (e : Entropy) : String × Entropy :=
  match kind with
  | .salt => Secret.generateSalt e
  | .secret size => Secret.generate size e

def takeText (s : KeySupply) (kind : TextKind) (e : Entropy) : String × KeySupply × Entropy :=
  match (s.pools.ofText kind).pop with
  | (some text, rest) => (text, { s with pools := s.pools.setText rest kind }, e)
  | (none, _) =>
    let (text, e) := generateText kind e
    (text, s, e)

def takeSecret (s : KeySupply) (bits : Nat) (e : Entropy) :
    Except KeyError (String × KeySupply × Entropy) := do
  let size ← Secret.Size.ofBits bits
  return s.takeText (.secret size) e

def takeSalt (s : KeySupply) (e : Entropy) : String × KeySupply × Entropy := s.takeText .salt e

/-! ## Adding items -/

/-- Offer a key pair to the pool of the profile, which it must have; a full pool refuses it. -/
def addKey (s : KeySupply) (p : Profile) (k : PrivateKey) : Except KeyError (Bool × KeySupply) := do
  let actual ← k.publicKey.profile
  if actual = p then
    let (accepted, pool) := (s.pools.ofKey p).push k
    return (accepted, { s with pools := s.pools.setKey pool p })
  else throw (.invalidKey (.otherProfile actual p))

def addKeyFor (s : KeySupply) (use : KeyUse) (level : Nat) (k : PrivateKey) :
    Except KeyError (Bool × KeySupply) := do
  let p ← Profile.forLevel use level
  s.addKey p k

end KeySupply

end Provenance
