import Provenance.Proofs.Generation
import Provenance.Supply.Refill

/-!
# The discipline of the pools

A supply answers one call after the other. For each pool there is a ledger of what the pool accepted
and one of what it handed out, and every call keeps the two in balance with what the pool holds
(`KeySupply.Balance`): what was held and then accepted is what is handed out and then held. A refill
balances because each visit to a pool does.

Main statement: `KeySupply.run_disciplined`.
-/

namespace Provenance

/-! ## What pools hold -/

inductive PoolItem
  | key (k : PrivateKey)
  | text (t : String)

namespace PoolItem

/-- A key pair fits the pool of its profile, a text fits any pool of texts. -/
def Fits : PoolItem → PoolKind → Prop
  | .key k, .key p => k.publicKey.profile = .ok p
  | .text _, .text _ => True
  | _, _ => False

/-- Key pairs are relabelled on the way out. -/
def relabel (label : Option String) : PoolItem → PoolItem
  | .key k => .key (k.relabel label)
  | .text t => .text t

theorem Fits.relabel {item : PoolItem} {kind : PoolKind} (h : item.Fits kind)
    (label : Option String) : (item.relabel label).Fits kind := by
  cases item with
  | key k =>
    cases label with
    | none => exact h
    | some label =>
      cases kind with
      | key p => exact h
      | text kind => exact h
  | text t => exact h

end PoolItem

/-- Items in the order in which they went into pools, or came out of them. -/
abbrev PoolLedger := List (PoolKind × PoolItem)

/-- The part of one pool. -/
def PoolLedger.ofPool (ledger : PoolLedger) (kind : PoolKind) : List PoolItem :=
  (ledger.filter (fun e => e.1 = kind)).map (·.2)

@[simp] theorem PoolLedger.ofPool_nil (kind : PoolKind) : ofPool [] kind = [] := rfl

@[simp] theorem PoolLedger.ofPool_append (ledger ledger' : PoolLedger) (kind : PoolKind) :
    ofPool (ledger ++ ledger') kind = ofPool ledger kind ++ ofPool ledger' kind := by
  simp [ofPool]

/-- The ledger of one pool. -/
def PoolLedger.at (kind : PoolKind) (items : List PoolItem) : PoolLedger :=
  items.map (fun item => (kind, item))

theorem PoolLedger.ofPool_at (kind other : PoolKind) (items : List PoolItem) :
    ofPool (PoolLedger.at kind items) other = if kind = other then items else [] := by
  induction items with
  | nil => simp [PoolLedger.at]
  | cons item items ih =>
    by_cases h : kind = other <;> simp_all [ofPool, PoolLedger.at]

def PoolSizes.ofPool (sizes : PoolSizes) : PoolKind → Nat
  | .key p => sizes.ofKey p
  | .text kind => sizes.ofText kind

theorem Pool.items_of_pop_none {α : Type} {p rest : Pool α} (h : p.pop = (none, rest)) :
    p.items = [] := by
  obtain ⟨target, _ | ⟨x, items⟩, hbounded⟩ := p
  · rfl
  · cases h

namespace KeySupply

/-- What a pool holds, the item that has waited longest first. -/
def held (s : KeySupply) : PoolKind → List PoolItem
  | .key p => (s.pools.ofKey p).items.map .key
  | .text kind => (s.pools.ofText kind).items.map .text

def target (s : KeySupply) : PoolKind → Nat
  | .key p => (s.pools.ofKey p).target
  | .text kind => (s.pools.ofText kind).target

theorem length_held_le (s : KeySupply) (kind : PoolKind) :
    (s.held kind).length ≤ s.target kind := by
  cases kind with
  | key p =>
    rw [held, List.length_map]
    exact (s.pools.ofKey p).bounded
  | text kind =>
    rw [held, List.length_map]
    exact (s.pools.ofText kind).bounded

theorem held_new (config : SupplyConfig) (kind : PoolKind) : (new config).held kind = [] := by
  cases kind with
  | key p => cases p <;> rfl
  | text kind => cases kind with
    | salt => rfl
    | secret size => cases size <;> rfl

theorem target_new (config : SupplyConfig) (kind : PoolKind) :
    (new config).target kind = config.targets.ofPool kind := by
  cases kind with
  | key p => cases p <;> rfl
  | text kind => cases kind with
    | salt => rfl
    | secret size => cases size <;> rfl

/-! ## The balance -/

/-- From one supply to another, nothing was lost, doubled, brought out of order or moved to another
pool. -/
structure Balance (s : KeySupply) (accepted handedOut : PoolLedger) (s' : KeySupply) : Prop where
  conserved : ∀ kind, s.held kind ++ accepted.ofPool kind = handedOut.ofPool kind ++ s'.held kind
  targets : ∀ kind, s'.target kind = s.target kind
  fits : ∀ e ∈ accepted, e.2.Fits e.1

namespace Balance

theorem refl (s : KeySupply) : Balance s [] [] s where
  conserved kind := by simp
  targets _ := rfl
  fits := by simp

theorem trans {s s' s'' : KeySupply} {accepted handedOut accepted' handedOut' : PoolLedger}
    (h : Balance s accepted handedOut s') (h' : Balance s' accepted' handedOut' s'') :
    Balance s (accepted ++ accepted') (handedOut ++ handedOut') s'' where
  conserved kind := by
    rw [PoolLedger.ofPool_append, PoolLedger.ofPool_append, ← List.append_assoc, h.conserved,
      List.append_assoc, h'.conserved, List.append_assoc]
  targets kind := (h'.targets kind).trans (h.targets kind)
  fits e he := (List.mem_append.mp he).elim (h.fits e) (h'.fits e)

theorem fits_of_mem {s s' : KeySupply} {accepted handedOut : PoolLedger}
    (h : Balance s accepted handedOut s') {kind : PoolKind} {item : PoolItem}
    (hitem : item ∈ accepted.ofPool kind) : item.Fits kind := by
  obtain ⟨e, he, rfl⟩ := List.mem_map.mp hitem
  obtain ⟨hmem, hkind⟩ := List.mem_filter.mp he
  rw [← of_decide_eq_true hkind]
  exact h.fits e hmem

/-- One pool changed. -/
theorem ofPool {s s' : KeySupply} {kind : PoolKind} {accepted handedOut : List PoolItem}
    (hheld : s.held kind ++ accepted = handedOut ++ s'.held kind)
    (hother : ∀ other, kind ≠ other → s'.held other = s.held other)
    (htarget : ∀ other, s'.target other = s.target other)
    (hfits : ∀ item ∈ accepted, item.Fits kind) :
    Balance s (PoolLedger.at kind accepted) (PoolLedger.at kind handedOut) s' where
  conserved other := by
    rw [PoolLedger.ofPool_at, PoolLedger.ofPool_at]
    by_cases h : kind = other
    · rw [if_pos h, if_pos h, ← h, hheld]
    · rw [if_neg h, if_neg h, hother other h, List.append_nil, List.nil_append]
  targets := htarget
  fits e he := by
    obtain ⟨item, hitem, rfl⟩ := List.mem_map.mp he
    exact hfits item hitem

theorem setKey {s : KeySupply} (p : Profile) {pool : Pool PrivateKey}
    (accepted handedOut : List PrivateKey)
    (hitems : (s.pools.ofKey p).items ++ accepted = handedOut ++ pool.items)
    (htarget : pool.target = (s.pools.ofKey p).target)
    (hfits : ∀ k ∈ accepted, k.publicKey.profile = .ok p) :
    Balance s (PoolLedger.at (.key p) (accepted.map .key))
      (PoolLedger.at (.key p) (handedOut.map .key))
      { s with pools := s.pools.setKey pool p } := by
  apply ofPool
  · rw [held, held, Pools.ofKey_setKey, if_pos rfl, ← List.map_append, hitems, List.map_append]
  · intro other hne
    cases other with
    | key q => rw [held, held, Pools.ofKey_setKey, if_neg (fun h => hne (congrArg PoolKind.key h))]
    | text kind => rw [held, held, Pools.ofText_setKey]
  · intro other
    cases other with
    | key q =>
      rw [target, target, Pools.ofKey_setKey]
      split
      · rename_i h
        rw [htarget, h]
      · rfl
    | text kind => rw [target, target, Pools.ofText_setKey]
  · intro item hitem
    obtain ⟨k, hk, rfl⟩ := List.mem_map.mp hitem
    exact hfits k hk

theorem setText {s : KeySupply} (kind : TextKind) {pool : Pool String}
    (accepted handedOut : List String)
    (hitems : (s.pools.ofText kind).items ++ accepted = handedOut ++ pool.items)
    (htarget : pool.target = (s.pools.ofText kind).target) :
    Balance s (PoolLedger.at (.text kind) (accepted.map .text))
      (PoolLedger.at (.text kind) (handedOut.map .text))
      { s with pools := s.pools.setText pool kind } := by
  apply ofPool
  · rw [held, held, Pools.ofText_setText, if_pos rfl, ← List.map_append, hitems, List.map_append]
  · intro other hne
    cases other with
    | key q => rw [held, held, Pools.ofKey_setText]
    | text i =>
      rw [held, held, Pools.ofText_setText, if_neg (fun h => hne (congrArg PoolKind.text h))]
  · intro other
    cases other with
    | key q => rw [target, target, Pools.ofKey_setText]
    | text i =>
      rw [target, target, Pools.ofText_setText]
      split
      · rename_i h
        rw [htarget, h]
      · rfl
  · intro item hitem
    obtain ⟨t, -, rfl⟩ := List.mem_map.mp hitem
    trivial

/-- A key pair was offered to the pool of its profile. -/
theorem pushKey {s : KeySupply} {p : Profile} {k : PrivateKey} (hk : k.publicKey.profile = .ok p)
    {accepted : Bool} {pool : Pool PrivateKey} (h : (s.pools.ofKey p).push k = (accepted, pool)) :
    Balance s (if accepted then [(.key p, .key k)] else []) []
      { s with pools := s.pools.setKey pool p } := by
  have hitems := (s.pools.ofKey p).items_push k
  have htarget := (s.pools.ofKey p).target_push k
  rw [h] at hitems htarget
  cases accepted with
  | true => exact setKey p [k] [] hitems.symm htarget (by simp [hk])
  | false => exact setKey p [] [] hitems.symm htarget (by simp)

/-- A text was offered to a pool of texts. -/
theorem pushText {s : KeySupply} {kind : TextKind} {text : String} {accepted : Bool}
    {pool : Pool String} (h : (s.pools.ofText kind).push text = (accepted, pool)) :
    Balance s (if accepted then [(.text kind, .text text)] else []) []
      { s with pools := s.pools.setText pool kind } := by
  have hitems := (s.pools.ofText kind).items_push text
  have htarget := (s.pools.ofText kind).target_push text
  rw [h] at hitems htarget
  cases accepted with
  | true => exact setText kind [text] [] hitems.symm htarget
  | false => exact setText kind [] [] hitems.symm htarget

end Balance

/-! ## Refilling -/

/-- What is generated for a pool. -/
def generateItem : PoolKind → Entropy → Except KeyError (PoolItem × Entropy)
  | .key p, e => (PrivateKey.generate p e).map (fun made => (.key made.1, made.2))
  | .text kind, e => .ok (.text (generateText kind e).1, (generateText kind e).2)

theorem generateItem_isOk (kind : PoolKind) (e : Entropy) :
    ∃ item e', generateItem kind e = .ok (item, e') ∧ item.Fits kind := by
  cases kind with
  | key p =>
    obtain ⟨k, e', hk⟩ := PrivateKey.generate_isOk p e
    refine ⟨.key k, e', ?_, PrivateKey.profile_of_generate p e hk⟩
    rw [generateItem, hk]
    rfl
  | text kind => exact ⟨_, _, rfl, trivial⟩

/-- What is generated is offered to its pool. -/
theorem produce_eq {s : KeySupply} {kind : PoolKind} {e e' : Entropy} {item : PoolItem}
    (h : generateItem kind e = .ok (item, e')) :
    ∃ accepted s', s.produce kind e = .ok (accepted, s', e') ∧
      Balance s (if accepted then [(kind, item)] else []) [] s' := by
  cases kind with
  | key p =>
    obtain ⟨k, e'', hk⟩ := PrivateKey.generate_isOk p e
    rw [generateItem, hk] at h
    cases h
    refine ⟨((s.pools.ofKey p).push k).1, _, ?_,
      Balance.pushKey (PrivateKey.profile_of_generate p e hk) rfl⟩
    rw [produce, hk]
    rfl
  | text kind =>
    cases h
    exact ⟨_, _, rfl, Balance.pushText rfl⟩

end KeySupply

namespace RefillTask

/-- What a pool accepts at a visit. -/
def entry (t : RefillTask) (kind : PoolKind) : PoolLedger :=
  if t.failure = none ∧ 0 < t.lack kind then
    match t.supply.produce kind t.entropy, KeySupply.generateItem kind t.entropy with
    | .ok (true, _), .ok (item, _) => [(kind, item)]
    | _, _ => []
  else []

/-- What pools accept at a row of visits. -/
def entries : List PoolKind → RefillTask → PoolLedger
  | [], _ => []
  | kind :: rest, t => t.entry kind ++ entries rest (t.visit kind)

/-- The visits of a task: rounds of all pools. -/
def schedule (t : RefillTask) : List PoolKind :=
  (List.replicate (roundCount t.lack) PoolKind.all).flatten

theorem run_eq_foldl (t : RefillTask) : t.run = t.schedule.foldl visit t := by
  have hrounds : ∀ n, Nat.repeat round n t =
      (List.replicate n PoolKind.all).flatten.foldl visit t := by
    intro n
    induction n with
    | zero => rfl
    | succ n ih =>
      rw [Nat.repeat, ih, List.replicate_succ', List.flatten_append, List.foldl_append,
        List.flatten_singleton, round]
  exact hrounds _

/-- What one visit keeps. -/
structure Sound (t : RefillTask) (ledger : PoolLedger) (t' : RefillTask) : Prop where
  balance : t.supply.Balance ledger [] t'.supply
  failure : t'.failure = none
  added : t'.added = t.added + ledger.length

theorem sound_visit {t : RefillTask} (h : t.failure = none) (kind : PoolKind) :
    t.Sound (t.entry kind) (t.visit kind) := by
  by_cases hlack : t.failure = none ∧ 0 < t.lack kind
  · obtain ⟨item, e', hitem, -⟩ := KeySupply.generateItem_isOk kind t.entropy
    obtain ⟨accepted, s', hproduce, hbalance⟩ := KeySupply.produce_eq (s := t.supply) hitem
    rw [entry, visit, if_pos hlack, if_pos hlack, hproduce, hitem]
    cases accepted with
    | true => exact ⟨hbalance, h, rfl⟩
    | false => exact ⟨hbalance, h, rfl⟩
  · rw [entry, visit, if_neg hlack, if_neg hlack]
    exact ⟨KeySupply.Balance.refl _, h, rfl⟩

theorem sound_foldl (kinds : List PoolKind) {t : RefillTask} (h : t.failure = none) :
    t.Sound (entries kinds t) (kinds.foldl visit t) := by
  induction kinds generalizing t with
  | nil => exact ⟨KeySupply.Balance.refl _, h, rfl⟩
  | cons kind kinds ih =>
    have hvisit := sound_visit h kind
    have hrest := ih hvisit.failure
    refine ⟨hvisit.balance.trans hrest.balance, hrest.failure, ?_⟩
    rw [List.foldl_cons, hrest.added, hvisit.added, entries, List.length_append, Nat.add_assoc]

end RefillTask

namespace KeySupply

def refillLedger (s : KeySupply) (cap : Nat) (e : Entropy) : PoolLedger :=
  let t := RefillTask.start s (s.lack cap) e
  RefillTask.entries t.schedule t

/-- A refill never fails, and reports how many items the pools accepted. -/
theorem refillOnce_eq (s : KeySupply) (cap : Nat) (e : Entropy) :
    ∃ s' e', s.refillOnce cap e = (.ok (s.refillLedger cap e).length, s', e') ∧
      Balance s (s.refillLedger cap e) [] s' := by
  have hsound := RefillTask.sound_foldl (RefillTask.start s (s.lack cap) e).schedule
    (t := RefillTask.start s (s.lack cap) e) rfl
  rw [← RefillTask.run_eq_foldl] at hsound
  refine ⟨_, (RefillTask.start s (s.lack cap) e).run.entropy, ?_, hsound.balance⟩
  have hadded := hsound.added
  rw [show (RefillTask.start s (s.lack cap) e).added = 0 from rfl, Nat.zero_add] at hadded
  rw [refillOnce]
  simp only [hsound.failure, hadded]
  rfl

/-! ## Taking items -/

/-- An item was taken from the pool that was asked, or made because the pool was empty. -/
inductive Takes (s : KeySupply) (kind : PoolKind) (label : Option String) :
    PoolItem → KeySupply → Prop
  | pooled {item : PoolItem} {rest : List PoolItem} {s' : KeySupply}
      (hheld : s.held kind = item :: rest) (hbalance : Balance s [] [(kind, item)] s') :
      Takes s kind label (item.relabel label) s'
  | made {item : PoolItem} (hheld : s.held kind = []) (hfits : item.Fits kind) :
      Takes s kind label item s

theorem takeKey_eq (s : KeySupply) (p : Profile) (label : Option String) (e : Entropy) :
    ∃ k s' e', s.takeKey p label e = .ok (k, s', e') ∧ Takes s (.key p) label (.key k) s' := by
  have hitems := (s.pools.ofKey p).items_pop
  have htarget := (s.pools.ofKey p).target_pop
  rcases hpop : (s.pools.ofKey p).pop with ⟨_ | k, rest⟩
  · obtain ⟨k, e', hk⟩ := PrivateKey.generate_isOk p e
    have hheld : s.held (.key p) = [] := by
      rw [held, Pool.items_of_pop_none hpop, List.map_nil]
    have hfits : (PoolItem.key k).Fits (.key p) := PrivateKey.profile_of_generate p e hk
    refine ⟨k.relabel label, s, e', ?_, .made hheld (hfits.relabel label)⟩
    rw [takeKey, hpop, hk]
    rfl
  · rw [hpop] at hitems htarget
    have hheld : s.held (.key p) = .key k :: rest.items.map .key := by
      rw [held, hitems]
      rfl
    have hbalance := Balance.setKey (s := s) p [] [k]
      ((List.append_nil _).trans hitems) htarget (by simp)
    refine ⟨k.relabel label, _, e, ?_, .pooled hheld hbalance⟩
    rw [takeKey, hpop]

theorem takeText_eq (s : KeySupply) (kind : TextKind) (label : Option String) (e : Entropy) :
    ∃ t s' e', s.takeText kind e = (t, s', e') ∧ Takes s (.text kind) label (.text t) s' := by
  have hitems := (s.pools.ofText kind).items_pop
  have htarget := (s.pools.ofText kind).target_pop
  rcases hpop : (s.pools.ofText kind).pop with ⟨_ | t, rest⟩
  · have hheld : s.held (.text kind) = [] := by
      rw [held, Pool.items_of_pop_none hpop, List.map_nil]
    refine ⟨(generateText kind e).1, s, (generateText kind e).2, ?_, .made hheld trivial⟩
    rw [takeText, hpop]
  · rw [hpop] at hitems htarget
    have hheld : s.held (.text kind) = .text t :: rest.items.map .text := by
      rw [held, hitems]
      rfl
    have hbalance := Balance.setText (s := s) kind [] [t]
      ((List.append_nil _).trans hitems) htarget
    have htakes : Takes s (.text kind) label (PoolItem.relabel label (.text t)) _ :=
      .pooled hheld hbalance
    refine ⟨t, _, e, ?_, htakes⟩
    rw [takeText, hpop]

end KeySupply

/-! ## Calls -/

theorem Profile.eq_of_ofLevel? {use : KeyUse} {level : Nat} {p : Profile}
    (h : ofLevel? use level = some p) : p.use = use ∧ p.level = level := by
  have hfound := List.find?_some h
  exact of_decide_eq_true hfound

inductive SupplyCall
  | takeKey (use : KeyUse) (level : Nat) (label : Option String)
  | takeSecret (bits : Nat)
  | takeSalt
  | addKey (use : KeyUse) (level : Nat) (key : PrivateKey)
  | refill (cap : Nat)

inductive SupplyAnswer
  | item (item : PoolItem)
  | offered (accepted : Bool)
  | refilled (count : Nat)
  | failed (error : KeyError)

namespace SupplyCall

/-- The pool that the call takes an item from. -/
def pool? : SupplyCall → Option PoolKind
  | takeKey use level _ => (Profile.ofLevel? use level).map .key
  | takeSecret bits =>
    match Secret.Size.ofBits bits with
    | .ok size => some (.text (.secret size))
    | .error _ => none
  | takeSalt => some (.text .salt)
  | addKey _ _ _ => none
  | refill _ => none

/-- What the item is relabelled with. -/
def label : SupplyCall → Option String
  | takeKey _ _ label => label
  | _ => none

/-- The level is not supported, or the key is of another profile than the one named. -/
def Refused : SupplyCall → Prop
  | takeKey use level _ => Profile.ofLevel? use level = none
  | takeSecret bits => bits ≠ 128 ∧ bits ≠ 256
  | takeSalt => False
  | addKey use level key =>
    ∀ p, Profile.ofLevel? use level = some p → key.publicKey.profile ≠ .ok p
  | refill _ => False

theorem Refused.pool?_eq_none {call : SupplyCall} (h : call.Refused) : call.pool? = none := by
  cases call with
  | takeKey use level label => exact Option.map_eq_none_iff.mpr h
  | takeSecret bits =>
    simp only [pool?]
    split
    · rename_i size hsize
      unfold Secret.Size.ofBits at hsize
      split at hsize
      · exact absurd rfl h.1
      · exact absurd rfl h.2
      · cases hsize
    · rfl
  | takeSalt => exact h.elim
  | addKey use level key => rfl
  | refill cap => rfl

/-- A call is refused, takes an item, offers one, or refills. -/
theorem cases (call : SupplyCall) :
    call.Refused ∨ (∃ kind, call.pool? = some kind) ∨
      (∃ use level key p, call = .addKey use level key ∧ Profile.ofLevel? use level = some p ∧
        key.publicKey.profile = .ok p) ∨
      ∃ cap, call = .refill cap := by
  cases call with
  | takeKey use level label =>
    cases hp : Profile.ofLevel? use level with
    | none => exact Or.inl hp
    | some p => exact Or.inr (Or.inl ⟨.key p, by rw [pool?, hp, Option.map_some]⟩)
  | takeSecret bits =>
    by_cases h128 : bits = 128
    · exact Or.inr (Or.inl ⟨.text (.secret .bits128), by rw [h128]; rfl⟩)
    by_cases h256 : bits = 256
    · exact Or.inr (Or.inl ⟨.text (.secret .bits256), by rw [h256]; rfl⟩)
    exact Or.inl ⟨h128, h256⟩
  | takeSalt => exact Or.inr (Or.inl ⟨.text .salt, rfl⟩)
  | addKey use level key =>
    by_cases h : ∃ p, Profile.ofLevel? use level = some p ∧ key.publicKey.profile = .ok p
    · obtain ⟨p, hp, hkey⟩ := h
      exact Or.inr (Or.inr (Or.inl ⟨use, level, key, p, rfl, hp, hkey⟩))
    · exact Or.inl (fun p hp hkey => h ⟨p, hp, hkey⟩)
  | refill cap => exact Or.inr (Or.inr (Or.inr ⟨cap, rfl⟩))

end SupplyCall

namespace KeySupply

/-- The answer to a call, and the supply after it. What the call needs to generate comes from the
entropy. -/
def answer (s : KeySupply) (call : SupplyCall) (e : Entropy) : SupplyAnswer × KeySupply :=
  match call with
  | .takeKey use level label =>
    match s.takeKeyFor use level label e with
    | .ok (k, s', _) => (.item (.key k), s')
    | .error error => (.failed error, s)
  | .takeSecret bits =>
    match s.takeSecret bits e with
    | .ok (t, s', _) => (.item (.text t), s')
    | .error error => (.failed error, s)
  | .takeSalt => (.item (.text (s.takeSalt e).1), (s.takeSalt e).2.1)
  | .addKey use level key =>
    match s.addKeyFor use level key with
    | .ok (accepted, s') => (.offered accepted, s')
    | .error error => (.failed error, s)
  | .refill cap =>
    match s.refillOnce cap e with
    | (.ok count, s', _) => (.refilled count, s')
    | (.error error, s', _) => (.failed error, s')

/-- What a call takes out of a pool: the item that has waited longest, if there is one. -/
def handedOut (s : KeySupply) (call : SupplyCall) : PoolLedger :=
  match call.pool? with
  | some kind => ((s.held kind).take 1).map (fun item => (kind, item))
  | none => []

/-- What pools accept at a call: the key pair, if the call answers so, or what a refill generates. -/
def accepted (s : KeySupply) (call : SupplyCall) (e : Entropy) : PoolLedger :=
  match call with
  | .addKey use level key =>
    match Profile.ofLevel? use level, s.answer call e with
    | some p, (.offered true, _) => [(.key p, .key key)]
    | _, _ => []
  | .refill cap => s.refillLedger cap e
  | _ => []

theorem answer_taking {s : KeySupply} {call : SupplyCall} {kind : PoolKind}
    (h : call.pool? = some kind) (e : Entropy) :
    ∃ item s', s.answer call e = (.item item, s') ∧ Takes s kind call.label item s' := by
  cases call with
  | takeKey use level label =>
    obtain ⟨p, hp, rfl⟩ := Option.map_eq_some_iff.mp h
    obtain ⟨k, s', e', hk, htakes⟩ := s.takeKey_eq p label e
    refine ⟨.key k, s', ?_, htakes⟩
    have hfor : s.takeKeyFor use level label e = .ok (k, s', e') := by
      rw [takeKeyFor, Profile.forLevel, hp]
      exact hk
    rw [answer, hfor]
  | takeSecret bits =>
    simp only [SupplyCall.pool?] at h
    split at h
    · rename_i size hsize
      cases h
      obtain ⟨t, s', e', ht, htakes⟩ := s.takeText_eq (.secret size) none e
      refine ⟨.text t, s', ?_, htakes⟩
      have hsecret : s.takeSecret bits e = .ok (t, s', e') := by
        rw [takeSecret, hsize, ← ht]
        rfl
      rw [answer, hsecret]
    · cases h
  | takeSalt =>
    cases h
    obtain ⟨t, s', e', ht, htakes⟩ := s.takeText_eq .salt none e
    refine ⟨.text t, s', ?_, htakes⟩
    rw [answer, takeSalt, ht]
  | addKey use level key => cases h
  | refill cap => cases h

theorem Takes.balance {s s' : KeySupply} {call : SupplyCall} {kind : PoolKind} {item : PoolItem}
    (hpool : call.pool? = some kind) (h : Takes s kind call.label item s') :
    Balance s [] (s.handedOut call) s' := by
  have hout : s.handedOut call = ((s.held kind).take 1).map (fun item => (kind, item)) := by
    rw [handedOut, hpool]
  cases h with
  | pooled hheld hbalance =>
    rw [hout, hheld]
    exact hbalance
  | made hheld hfits =>
    rw [hout, hheld]
    exact Balance.refl s

theorem Takes.fits {s s' : KeySupply} {kind : PoolKind} {label : Option String} {item : PoolItem}
    (h : Takes s kind label item s') (hs : ∀ item ∈ s.held kind, item.Fits kind) :
    item.Fits kind := by
  cases h with
  | pooled hheld hbalance =>
    refine (hs _ ?_).relabel label
    rw [hheld]
    exact List.mem_cons_self ..
  | made hheld hfits => exact hfits

theorem Takes.unchanged {s s' : KeySupply} {kind : PoolKind} {label : Option String}
    {item : PoolItem} (h : Takes s kind label item s') (hempty : s.held kind = []) : s' = s := by
  cases h with
  | pooled hheld hbalance =>
    rw [hempty] at hheld
    cases hheld
  | made hheld hfits => rfl

theorem Takes.first {s s' : KeySupply} {kind : PoolKind} {label : Option String} {item : PoolItem}
    (h : Takes s kind label item s') {first : PoolItem} {rest : List PoolItem}
    (hfirst : s.held kind = first :: rest) : item = first.relabel label := by
  cases h with
  | pooled hheld hbalance =>
    rw [hheld, List.cons.injEq] at hfirst
    rw [hfirst.1]
  | made hheld hfits =>
    rw [hheld] at hfirst
    cases hfirst

theorem answer_addKey {s : KeySupply} {use : KeyUse} {level : Nat} {key : PrivateKey} {p : Profile}
    (hp : Profile.ofLevel? use level = some p) (hkey : key.publicKey.profile = .ok p)
    (e : Entropy) :
    ∃ accepted s', s.answer (.addKey use level key) e = (.offered accepted, s') ∧
      Balance s (if accepted then [(.key p, .key key)] else []) [] s' := by
  rcases hpush : (s.pools.ofKey p).push key with ⟨accepted, pool⟩
  refine ⟨accepted, _, ?_, Balance.pushKey hkey hpush⟩
  have hadd : s.addKeyFor use level key =
      .ok (accepted, { s with pools := s.pools.setKey pool p }) := by
    rw [addKeyFor, Profile.forLevel, hp]
    simp only [bind, Except.bind, addKey, hkey, if_true, hpush]
    rfl
  rw [answer, hadd]

theorem answer_refused {s : KeySupply} {call : SupplyCall} (h : call.Refused) (e : Entropy) :
    ∃ error, s.answer call e = (.failed error, s) := by
  cases call with
  | takeKey use level label =>
    have hlevel : Profile.ofLevel? use level = none := h
    have hfor : s.takeKeyFor use level label e = .error (.unsupportedLevel level) := by
      rw [takeKeyFor, Profile.forLevel, hlevel]
      rfl
    exact ⟨_, by rw [answer, hfor]⟩
  | takeSecret bits =>
    have hbits : Secret.Size.ofBits bits = .error (.unsupportedLevel bits) := by
      unfold Secret.Size.ofBits
      split
      · exact absurd rfl h.1
      · exact absurd rfl h.2
      · rfl
    have hsecret : s.takeSecret bits e = .error (.unsupportedLevel bits) := by
      rw [takeSecret, hbits]
      rfl
    exact ⟨_, by rw [answer, hsecret]⟩
  | takeSalt => exact h.elim
  | addKey use level key =>
    have hadd : ∃ error, s.addKeyFor use level key = .error error := by
      rw [addKeyFor, Profile.forLevel]
      cases hp : Profile.ofLevel? use level with
      | none => exact ⟨_, rfl⟩
      | some p =>
        simp only [bind, Except.bind, addKey]
        cases hactual : key.publicKey.profile with
        | error error => exact ⟨error, rfl⟩
        | ok actual =>
          have hne : actual ≠ p := by
            rintro rfl
            exact h actual hp hactual
          exact ⟨_, if_neg hne⟩
    obtain ⟨error, hadd⟩ := hadd
    exact ⟨error, by rw [answer, hadd]⟩
  | refill cap => exact h.elim

theorem accepted_refused {s : KeySupply} {call : SupplyCall} (h : call.Refused) (e : Entropy) :
    s.accepted call e = [] := by
  cases call with
  | addKey use level key =>
    obtain ⟨error, hanswer⟩ := answer_refused (s := s) h e
    simp only [accepted, hanswer]
    cases Profile.ofLevel? use level <;> rfl
  | refill cap => exact h.elim
  | takeKey use level label => rfl
  | takeSecret bits => rfl
  | takeSalt => rfl

theorem accepted_taking {s : KeySupply} {call : SupplyCall} {kind : PoolKind}
    (h : call.pool? = some kind) (e : Entropy) : s.accepted call e = [] := by
  cases call with
  | addKey use level key => cases h
  | refill cap => cases h
  | takeKey use level label => rfl
  | takeSecret bits => rfl
  | takeSalt => rfl

/-- Every call keeps the balance. -/
theorem answer_balance (s : KeySupply) (call : SupplyCall) (e : Entropy) :
    Balance s (s.accepted call e) (s.handedOut call) (s.answer call e).2 := by
  rcases call.cases with hrefused | ⟨kind, hpool⟩ | ⟨use, level, key, p, rfl, hp, hkey⟩ | ⟨cap, rfl⟩
  · obtain ⟨error, hanswer⟩ := answer_refused (s := s) hrefused e
    rw [accepted_refused hrefused, handedOut, hrefused.pool?_eq_none, hanswer]
    exact Balance.refl s
  · obtain ⟨item, s', hanswer, htakes⟩ := answer_taking (s := s) hpool e
    rw [accepted_taking hpool, hanswer]
    exact htakes.balance hpool
  · obtain ⟨accepted, s', hanswer, hbalance⟩ := answer_addKey (s := s) hp hkey e
    have haccepted : s.accepted (.addKey use level key) e =
        if accepted then [(.key p, .key key)] else [] := by
      simp only [KeySupply.accepted, hp, hanswer]
      cases accepted <;> rfl
    rw [haccepted, hanswer]
    exact hbalance
  · obtain ⟨s', e', hrefill, hbalance⟩ := s.refillOnce_eq cap e
    rw [answer, hrefill]
    exact hbalance

/-- Only refused calls fail. -/
theorem refused_of_failed {s : KeySupply} {call : SupplyCall} {e : Entropy} {error : KeyError}
    (h : (s.answer call e).1 = .failed error) : call.Refused := by
  rcases call.cases with hrefused | ⟨kind, hpool⟩ | ⟨use, level, key, p, rfl, hp, hkey⟩ | ⟨cap, rfl⟩
  · exact hrefused
  · obtain ⟨item, s', hanswer, -⟩ := answer_taking (s := s) hpool e
    rw [hanswer] at h
    cases h
  · obtain ⟨accepted, s', hanswer, -⟩ := answer_addKey (s := s) hp hkey e
    rw [hanswer] at h
    cases h
  · obtain ⟨s', e', hrefill, -⟩ := s.refillOnce_eq cap e
    rw [answer, hrefill] at h
    cases h

/-! ## Runs -/

/-- The supply after some calls, each with entropy of its own. -/
def run (s : KeySupply) : List (SupplyCall × Entropy) → KeySupply
  | [] => s
  | (call, e) :: rest => (s.answer call e).2.run rest

def acceptedIn (s : KeySupply) : List (SupplyCall × Entropy) → PoolLedger
  | [] => []
  | (call, e) :: rest => s.accepted call e ++ (s.answer call e).2.acceptedIn rest

def handedOutIn (s : KeySupply) : List (SupplyCall × Entropy) → PoolLedger
  | [] => []
  | (call, e) :: rest => s.handedOut call ++ (s.answer call e).2.handedOutIn rest

theorem run_balance (s : KeySupply) (calls : List (SupplyCall × Entropy)) :
    Balance s (s.acceptedIn calls) (s.handedOutIn calls) (s.run calls) := by
  induction calls generalizing s with
  | nil => exact Balance.refl s
  | cons c rest ih => exact (s.answer_balance c.1 c.2).trans (ih (s.answer c.1 c.2).2)

theorem run_new_balance (config : SupplyConfig) (calls : List (SupplyCall × Entropy))
    (kind : PoolKind) :
    ((new config).acceptedIn calls).ofPool kind =
      ((new config).handedOutIn calls).ofPool kind ++ ((new config).run calls).held kind := by
  have h := (run_balance (new config) calls).conserved kind
  rwa [held_new, List.nil_append] at h

/-- All that a pool holds fits it, since it was accepted at some time. -/
theorem fits_run (config : SupplyConfig) (calls : List (SupplyCall × Entropy)) {kind : PoolKind}
    {item : PoolItem} (h : item ∈ ((new config).run calls).held kind) : item.Fits kind := by
  have hmem : item ∈ ((new config).acceptedIn calls).ofPool kind := by
    rw [run_new_balance]
    exact List.mem_append_right _ h
  exact (run_balance (new config) calls).fits_of_mem hmem

/-- **The discipline of the pools.** After any calls to a new supply, no pool is above its target,
and each pool accepted, in order, what it handed out and then what it holds. A further call that
takes an item gets one that fits the pool: the first one, relabelled, or one made for the call if
the pool is empty, which changes nothing. So a key pair has the use and the level that were asked
for. A call fails exactly if it is refused, and that changes nothing either. -/
theorem run_disciplined (config : SupplyConfig) (calls : List (SupplyCall × Entropy)) :
    let s := (new config).run calls
    (∀ kind, (s.held kind).length ≤ config.targets.ofPool kind) ∧
    (∀ kind, ((new config).acceptedIn calls).ofPool kind =
      ((new config).handedOutIn calls).ofPool kind ++ s.held kind) ∧
    ∀ (call : SupplyCall) (e : Entropy),
      (∀ kind, call.pool? = some kind → ∃ item, (s.answer call e).1 = .item item ∧
        item.Fits kind ∧ (s.held kind = [] → (s.answer call e).2 = s) ∧
        ∀ first rest, s.held kind = first :: rest → item = first.relabel call.label) ∧
      (∀ use level label k, call = .takeKey use level label →
        (s.answer call e).1 = .item (.key k) →
          ∃ p, k.publicKey.profile = .ok p ∧ p.use = use ∧ p.level = level) ∧
      ((∃ error, (s.answer call e).1 = .failed error) ↔ call.Refused) ∧
      ∀ error, (s.answer call e).1 = .failed error → (s.answer call e).2 = s := by
  intro s
  have hheld : ∀ kind, ∀ item ∈ s.held kind, item.Fits kind :=
    fun kind item hitem => fits_run config calls hitem
  refine ⟨fun kind => ?_, run_new_balance config calls, fun call e => ⟨?_, ?_, ?_, ?_⟩⟩
  · rw [← target_new config, ← (run_balance (new config) calls).targets kind]
    exact s.length_held_le kind
  · intro kind hpool
    obtain ⟨item, s', hanswer, htakes⟩ := answer_taking (s := s) hpool e
    rw [hanswer]
    exact ⟨item, rfl, htakes.fits (hheld kind), htakes.unchanged, fun _ _ => htakes.first⟩
  · rintro use level label k rfl hanswer
    cases hp : Profile.ofLevel? use level with
    | none =>
      have hrefused : (SupplyCall.takeKey use level label).Refused := hp
      obtain ⟨error, hfailed⟩ := answer_refused (s := s) hrefused e
      rw [hfailed] at hanswer
      cases hanswer
    | some p =>
      have hpool : (SupplyCall.takeKey use level label).pool? = some (.key p) := by
        rw [SupplyCall.pool?, hp, Option.map_some]
      obtain ⟨item, s', htaken, htakes⟩ := answer_taking (s := s) hpool e
      rw [htaken, SupplyAnswer.item.injEq] at hanswer
      have hfits := htakes.fits (hheld (.key p))
      rw [hanswer] at hfits
      exact ⟨p, hfits, Profile.eq_of_ofLevel? hp⟩
  · constructor
    · rintro ⟨error, hfailed⟩
      exact refused_of_failed hfailed
    · intro hrefused
      obtain ⟨error, hanswer⟩ := answer_refused (s := s) hrefused e
      exact ⟨error, by rw [hanswer]⟩
  · intro error hfailed
    obtain ⟨error', hanswer⟩ := answer_refused (s := s) (refused_of_failed hfailed) e
    rw [hanswer]

end KeySupply

end Provenance
