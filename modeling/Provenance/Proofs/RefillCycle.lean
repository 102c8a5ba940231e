import Provenance.Proofs.PoolDiscipline

/-!
# A refill cycle

A cycle goes round the pools until a round adds nothing. It notes at its start how many items each
pool holds and then counts for itself; a pool that refuses an item gets the highest count there is,
which is above every limit (`RefillLoop`). Each item that a pool lacks is accepted when its turn
comes (`RefillTask.Steady`), so that the number of rounds is known beforehand, and a refill makes
just these.

* `RefillTask.Steady.visit`: what one visit adds and leaves over;
* `RefillLoop.Tracks.visit`: one visit of the loop is one visit of the task;
* `RefillLoop.Tracks.ends`: the loop ends, where the task ends;
* `KeySupply.refillOnce_settled`: what the pools are afterwards, and that a second cycle finds
  nothing to do.
-/

namespace Provenance

namespace PoolKind

theorem mem_all (kind : PoolKind) : kind ∈ all := by
  cases kind with
  | key p => cases p <;> decide
  | text kind => cases kind with
    | salt => decide
    | secret size => cases size <;> decide

/-- What is to be shown of every pool can be tried on the eight of them. -/
instance {p : PoolKind → Prop} [DecidablePred p] : Decidable (∀ kind, p kind) :=
  decidable_of_iff (∀ kind ∈ all, p kind) ⟨fun h kind => h kind kind.mem_all, fun h kind _ => h kind⟩

theorem count_all : ∀ kind, all.count kind = 1 := by decide

end PoolKind

theorem Pool.push_accepted {α : Type} {p : Pool α} (h : p.items.length < p.target) (x : α) :
    (p.push x).1 = true := by
  rw [push, dif_pos h]

namespace PoolLedger

theorem length_ofPool_singleton (kind other : PoolKind) (item : PoolItem) :
    (ofPool [(kind, item)] other).length = if kind = other then 1 else 0 := by
  rw [show [(kind, item)] = PoolLedger.at kind [item] from rfl, ofPool_at]
  split <;> rfl

/-- Every entry of a ledger is in the part of one pool. -/
theorem sum_length_ofPool (ledger : PoolLedger) :
    (PoolKind.all.map (fun kind => (ledger.ofPool kind).length)).sum = ledger.length := by
  induction ledger with
  | nil => rfl
  | cons e ledger ih =>
    have hone : ∀ kind : PoolKind,
        (PoolKind.all.map (fun other => if kind = other then 1 else 0)).sum = 1 := by decide
    have hcons : ∀ kind, (ofPool (e :: ledger) kind).length =
        (if e.1 = kind then 1 else 0) + (ofPool ledger kind).length := by
      intro kind
      rw [← length_ofPool_singleton e.1 kind e.2, ← List.length_append, ← ofPool_append]
      rfl
    simp only [hcons, List.sum_map_add, hone, ih, List.length_cons]
    omega

end PoolLedger

namespace KeySupply

/-! ## Sizes and limits -/

/-- How full a refill under a cap makes a pool that holds less. -/
def limit (s : KeySupply) (cap : Nat) (kind : PoolKind) : Nat := min (s.target kind) cap

theorem lack_eq (s : KeySupply) (cap : Nat) (kind : PoolKind) :
    s.lack cap kind = s.limit cap kind - (s.held kind).length := by
  cases kind with
  | key p => rw [held, List.length_map]; rfl
  | text kind => rw [held, List.length_map]; rfl

theorem total_eq (s : KeySupply) :
    s.sizes.total = (PoolKind.all.map (fun kind => (s.held kind).length)).sum := by
  simp only [sizes, Pools.sizes, PoolSizes.total, PoolSizes.toList, PoolKind.all, Profile.all,
    TextKind.all, List.map_append, List.map_cons, List.map_nil, List.sum_append, List.sum_cons,
    List.sum_nil, List.foldr_cons, List.foldr_nil, held, Pools.ofKey, Pools.ofText, List.length_map,
    Pool.size]
  omega

section

variable {s s' : KeySupply} {ledger : PoolLedger}

/-- What pools accepted, and did not hand out, stands behind what they held. -/
theorem Balance.held (h : Balance s ledger [] s') (kind : PoolKind) :
    s'.held kind = s.held kind ++ ledger.ofPool kind := by
  rw [h.conserved, PoolLedger.ofPool_nil, List.nil_append]

theorem Balance.total (h : Balance s ledger [] s') :
    s'.sizes.total = s.sizes.total + ledger.length := by
  simp only [total_eq, h.held, List.length_append, List.sum_map_add, PoolLedger.sum_length_ofPool]

end

/-- A pool accepts what is made for it as long as it has room. -/
theorem produce_accepted {s s' : KeySupply} {kind : PoolKind} {e e' : Entropy} {accepted : Bool}
    (h : s.produce kind e = .ok (accepted, s', e')) (hroom : (s.held kind).length < s.target kind) :
    accepted = true := by
  cases kind with
  | key p =>
    obtain ⟨k, e'', hk⟩ := PrivateKey.generate_isOk p e
    rw [produce, hk] at h
    rw [held, List.length_map] at hroom
    cases h
    exact Pool.push_accepted hroom k
  | text kind =>
    rw [held, List.length_map] at hroom
    cases h
    exact Pool.push_accepted hroom _

end KeySupply

namespace RefillTask

/-! ## Rounds that are never refused -/

/-- The task brings each pool up to a goal that is not above its target. -/
structure Steady (t : RefillTask) (goal : PoolKind → Nat) : Prop where
  failure : t.failure = none
  reached : ∀ kind, (t.supply.held kind).length + t.lack kind = goal kind
  target : ∀ kind, goal kind ≤ t.supply.target kind

theorem steady_start (s : KeySupply) (cap : Nat) (e : Entropy) :
    (start s (s.lack cap) e).Steady
      (fun kind => max (s.held kind).length (min (s.target kind) cap)) where
  failure := rfl
  reached kind := by
    show (s.held kind).length + s.lack cap kind = _
    rw [KeySupply.lack_eq, KeySupply.limit]
    omega
  target kind := max_le (s.length_held_le kind) (Nat.min_le_left ..)

section

variable {t : RefillTask} {goal : PoolKind → Nat}

/-- A pool that lacks something has room, so that it accepts what is made for it. -/
theorem Steady.visit_lacking (h : t.Steady goal) {kind : PoolKind} (hlack : 0 < t.lack kind) :
    ∃ item s' e', t.visit kind = { (t.setLack kind (t.lack kind - 1)) with
        supply := s', entropy := e', added := t.added + 1 } ∧
      KeySupply.Balance t.supply [(kind, item)] [] s' := by
  obtain ⟨item, e', hitem, -⟩ := KeySupply.generateItem_isOk kind t.entropy
  obtain ⟨accepted, s', hproduce, hbalance⟩ := KeySupply.produce_eq (s := t.supply) hitem
  have hroom : (t.supply.held kind).length < t.supply.target kind := by
    have hreached := h.reached kind
    have htarget := h.target kind
    omega
  obtain rfl := KeySupply.produce_accepted hproduce hroom
  refine ⟨item, s', e', ?_, hbalance⟩
  rw [RefillTask.visit, if_pos ⟨h.failure, hlack⟩, hproduce]

theorem Steady.visit (h : t.Steady goal) (kind : PoolKind) :
    (t.visit kind).Steady goal ∧
      ∀ other, (t.visit kind).lack other =
        t.lack other - if kind = other then 1 else 0 := by
  by_cases hlack : 0 < t.lack kind
  · obtain ⟨item, s', e', hvisit, hbalance⟩ := h.visit_lacking hlack
    have hvisited : ∀ other, (t.visit kind).lack other =
        t.lack other - if kind = other then 1 else 0 := by
      intro other
      rw [hvisit]
      by_cases hother : other = kind
      · subst hother
        simp only [setLack, if_true]
      · simp only [setLack, hother, Ne.symm hother, if_false, Nat.sub_zero]
    refine ⟨⟨?_, fun other => ?_, fun other => ?_⟩, hvisited⟩
    · rw [hvisit]
      exact h.failure
    · have hreached := h.reached other
      have hsupply : (t.visit kind).supply = s' := by rw [hvisit]
      rw [hvisited, hsupply, hbalance.held, List.length_append, PoolLedger.length_ofPool_singleton]
      split
      · rename_i hother
        subst hother
        omega
      · exact hreached
    · rw [hvisit]
      exact (h.target other).trans_eq (hbalance.targets other).symm
  · have hvisit : t.visit kind = t := by
      rw [RefillTask.visit, if_neg (fun hboth => hlack hboth.2)]
    rw [hvisit]
    refine ⟨h, fun other => ?_⟩
    split
    · rename_i hother
      subst hother
      omega
    · rfl

theorem Steady.foldl (h : t.Steady goal) (kinds : List PoolKind) :
    (kinds.foldl RefillTask.visit t).Steady goal ∧
      ∀ other, (kinds.foldl RefillTask.visit t).lack other = t.lack other - kinds.count other := by
  induction kinds generalizing t with
  | nil => exact ⟨h, fun other => rfl⟩
  | cons kind kinds ih =>
    obtain ⟨hsteady, hlack⟩ := h.visit kind
    obtain ⟨hrest, hcount⟩ := ih hsteady
    refine ⟨hrest, fun other => ?_⟩
    rw [List.foldl_cons, hcount, hlack, List.count_cons, Nat.sub_sub, Nat.add_comm]
    simp only [beq_iff_eq]

theorem Steady.round (h : t.Steady goal) :
    t.round.Steady goal ∧ ∀ kind, t.round.lack kind = t.lack kind - 1 := by
  obtain ⟨hsteady, hlack⟩ := h.foldl PoolKind.all
  refine ⟨hsteady, fun kind => ?_⟩
  rw [RefillTask.round, hlack, PoolKind.count_all]

end

/-! ## How many rounds there are -/

theorem roundCount_le_iff {lack : PoolKind → Nat} {n : Nat} :
    roundCount lack ≤ n ↔ ∀ kind, lack kind ≤ n := by
  have hfold : ∀ (xs : List Nat) (a : Nat), xs.foldl max a ≤ n ↔ a ≤ n ∧ ∀ x ∈ xs, x ≤ n := by
    intro xs
    induction xs with
    | nil => simp
    | cons x xs ih =>
      intro a
      rw [List.foldl_cons, ih, List.forall_mem_cons, Nat.max_le, and_assoc]
  rw [roundCount, hfold]
  simp only [Nat.zero_le, true_and, List.forall_mem_map]
  exact ⟨fun h kind => h kind kind.mem_all, fun h kind _ => h kind⟩

theorem roundCount_round {t : RefillTask} {goal : PoolKind → Nat} (h : t.Steady goal) :
    roundCount t.round.lack = roundCount t.lack - 1 := by
  have hlack := h.round.2
  have hle : ∀ n, roundCount t.round.lack ≤ n ↔ roundCount t.lack ≤ n + 1 := by
    intro n
    simp only [roundCount_le_iff, hlack, Nat.sub_le_iff_le_add]
  have hupper := (hle (roundCount t.lack - 1)).mpr (by omega)
  have hlower := (hle (roundCount t.round.lack)).mp (Nat.le_refl _)
  omega

theorem run_of_roundCount_zero {t : RefillTask} (h : roundCount t.lack = 0) : t.run = t := by
  rw [run, h]
  rfl

theorem run_of_roundCount_succ {t : RefillTask} {goal : PoolKind → Nat} (hsteady : t.Steady goal)
    {n : Nat} (h : roundCount t.lack = n + 1) : t.run = t.round.run := by
  have hrepeat : ∀ (n : Nat) (t : RefillTask),
      Nat.repeat round (n + 1) t = Nat.repeat round n t.round := by
    intro n t
    induction n with
    | zero => rfl
    | succ n ih => exact congrArg round ih
  rw [run, run, roundCount_round hsteady, h, hrepeat, Nat.add_sub_cancel]

/-- At the end nothing is lacking. -/
theorem Steady.run {t : RefillTask} {goal : PoolKind → Nat} (h : t.Steady goal) :
    t.run.Steady goal ∧ ∀ kind, t.run.lack kind = 0 := by
  induction hn : roundCount t.lack generalizing t with
  | zero =>
    rw [run_of_roundCount_zero hn]
    exact ⟨h, fun kind => Nat.le_zero.mp (roundCount_le_iff.mp hn.le kind)⟩
  | succ n ih =>
    rw [run_of_roundCount_succ h hn]
    exact ih h.round.1 (by rw [roundCount_round h, hn, Nat.add_sub_cancel])

theorem Steady.added_round {t : RefillTask} {goal : PoolKind → Nat} (h : t.Steady goal)
    (hlack : 0 < roundCount t.lack) : t.added < t.round.added := by
  have hsound := sound_foldl PoolKind.all h.failure
  have hkind : ∃ kind, 0 < t.lack kind := by
    by_contra hnone
    have hzero : roundCount t.lack ≤ 0 :=
      roundCount_le_iff.mpr (fun kind => Nat.not_lt.mp (fun hpos => hnone ⟨kind, hpos⟩))
    omega
  obtain ⟨kind, hkind⟩ := hkind
  have hledger : entries PoolKind.all t ≠ [] := by
    intro hnil
    have hheld := hsound.balance.held kind
    rw [hnil, PoolLedger.ofPool_nil, List.append_nil] at hheld
    have hbefore := h.reached kind
    have hafter := h.round.1.reached kind
    rw [h.round.2, RefillTask.round, hheld] at hafter
    omega
  have hadded : t.round.added = t.added + (entries PoolKind.all t).length := hsound.added
  have hpos := List.length_pos_iff.mpr hledger
  omega

/-- Where nothing is lacking, a round changes nothing. -/
theorem round_of_roundCount_zero {t : RefillTask} (h : roundCount t.lack = 0) : t.round = t := by
  have hvisit : ∀ kind, t.visit kind = t := by
    intro kind
    have hzero := Nat.le_zero.mp (roundCount_le_iff.mp h.le kind)
    rw [visit, if_neg (fun hboth => absurd hzero (Nat.pos_iff_ne_zero.mp hboth.2))]
  have hfold : ∀ kinds : List PoolKind, kinds.foldl visit t = t := by
    intro kinds
    induction kinds with
    | nil => rfl
    | cons kind kinds ih => rw [List.foldl_cons, hvisit, ih]
  exact hfold PoolKind.all

end RefillTask

/-! ## The loop -/

/-- A cycle that goes on for as long as its rounds add something. The counts are its own. -/
structure RefillLoop where
  supply : KeySupply
  entropy : Entropy
  /-- How many items each pool is taken to hold. -/
  count : PoolKind → UInt64
  added : Nat
  /-- Whether the round at hand has added anything. -/
  progressed : Bool
  failure : Option KeyError

namespace RefillLoop

/-- The count of a pool that refused an item. -/
def fullCount : UInt64 := 0xffffffffffffffff

def start (s : KeySupply) (e : Entropy) : RefillLoop :=
  ⟨s, e, fun kind => UInt64.ofNat (s.held kind).length, 0, false, none⟩

def setCount (l : RefillLoop) (kind : PoolKind) (n : UInt64) : RefillLoop :=
  { l with count := fun j => if j = kind then n else l.count j }

/-- One item for one pool, if it is counted below its limit. -/
def visit (cap : UInt64) (l : RefillLoop) (kind : PoolKind) : RefillLoop :=
  if l.failure = none ∧ (l.count kind).toNat < l.supply.limit cap.toNat kind then
    match l.supply.produce kind l.entropy with
    | .error failure => { l with failure := some failure }
    | .ok (true, supply, entropy) =>
      { (l.setCount kind (l.count kind + 1)) with
        supply := supply, entropy := entropy, added := l.added + 1, progressed := true }
    | .ok (false, supply, entropy) =>
      { (l.setCount kind fullCount) with supply := supply, entropy := entropy }
  else l

def round (cap : UInt64) (l : RefillLoop) : RefillLoop :=
  PoolKind.all.foldl (visit cap) { l with progressed := false }

def isOver (l : RefillLoop) : Bool := l.failure.isSome || !l.progressed

/-- The loop ends with the first round that fails or adds nothing. -/
inductive Ends (cap : UInt64) : RefillLoop → RefillLoop → Prop
  | last {l : RefillLoop} (hover : (l.round cap).isOver = true) : Ends cap l (l.round cap)
  | next {l l' : RefillLoop} (hover : (l.round cap).isOver = false)
      (hrest : Ends cap (l.round cap) l') : Ends cap l l'

def answer (l : RefillLoop) : Except KeyError Nat × KeySupply × Entropy :=
  match l.failure with
  | none => (.ok l.added, l.supply, l.entropy)
  | some failure => (.error failure, l.supply, l.entropy)

theorem Ends.unique {cap : UInt64} {l l' l'' : RefillLoop} (h : Ends cap l l')
    (h' : Ends cap l l'') : l' = l'' := by
  induction h with
  | last hover =>
    cases h' with
    | last => rfl
    | next hover' => exact absurd (hover.symm.trans hover') (by decide)
  | next hover hrest ih =>
    cases h' with
    | last hover' => exact absurd (hover.symm.trans hover') (by decide)
    | next hover' hrest' => exact ih hrest'

/-- The loop is where the task is, in a round before which `added` items were added. -/
structure Tracks (cap : UInt64) (added : Nat) (l : RefillLoop) (t : RefillTask) : Prop where
  supply : l.supply = t.supply
  entropy : l.entropy = t.entropy
  total : l.added = t.added
  failure : l.failure = t.failure
  before : added ≤ t.added
  progressed : l.progressed = decide (added < t.added)
  lack : ∀ kind, t.lack kind = t.supply.limit cap.toNat kind - (l.count kind).toNat

section

variable {cap : UInt64} {added : Nat} {l : RefillLoop} {t : RefillTask}

theorem tracks_start (cap : UInt64) {s : KeySupply} (e : Entropy)
    (h : ∀ kind, (s.held kind).length < UInt64.size) :
    Tracks cap 0 (start s e) (.start s (s.lack cap.toNat) e) where
  supply := rfl
  entropy := rfl
  total := rfl
  failure := rfl
  before := Nat.le_refl 0
  progressed := rfl
  lack kind := by
    have hcount : (UInt64.ofNat (s.held kind).length).toNat = (s.held kind).length :=
      UInt64.toNat_ofNat_of_lt (h kind)
    show s.lack cap.toNat kind = s.limit cap.toNat kind - (UInt64.ofNat _).toNat
    rw [hcount, KeySupply.lack_eq]

/-- Between rounds nothing has been added yet. -/
theorem Tracks.restart (h : Tracks cap added l t) :
    Tracks cap t.added { l with progressed := false } t where
  supply := h.supply
  entropy := h.entropy
  total := h.total
  failure := h.failure
  before := Nat.le_refl _
  progressed := by simp
  lack := h.lack

theorem Tracks.lack_setCount (h : Tracks cap added l t) {s' : KeySupply}
    (hlimits : ∀ other, s'.limit cap.toNat other = t.supply.limit cap.toNat other) {kind : PoolKind}
    {rest : Nat} {n : UInt64} (hrest : rest = t.supply.limit cap.toNat kind - n.toNat)
    (other : PoolKind) : (t.setLack kind rest).lack other =
      s'.limit cap.toNat other - ((l.setCount kind n).count other).toNat := by
  rw [hlimits, setCount, RefillTask.setLack]
  by_cases hother : other = kind
  · subst hother
    simp only [if_true, hrest]
  · simp only [hother, if_false, h.lack other]

theorem Tracks.visit (h : Tracks cap added l t) (kind : PoolKind) :
    Tracks cap added (l.visit cap kind) (t.visit kind) := by
  have hlack := h.lack kind
  have hguard : l.failure = none ∧ (l.count kind).toNat < l.supply.limit cap.toNat kind ↔
      t.failure = none ∧ 0 < t.lack kind := by
    rw [h.failure, h.supply, hlack, Nat.sub_pos_iff_lt]
  by_cases hturn : t.failure = none ∧ 0 < t.lack kind
  · obtain ⟨item, e', hitem, -⟩ := KeySupply.generateItem_isOk kind t.entropy
    obtain ⟨accepted, s', hproduce, hbalance⟩ := KeySupply.produce_eq (s := t.supply) hitem
    have hlimits : ∀ other, s'.limit cap.toNat other = t.supply.limit cap.toNat other := by
      intro other
      rw [KeySupply.limit, KeySupply.limit, hbalance.targets]
    have hproduce' : l.supply.produce kind l.entropy = .ok (accepted, s', e') := by
      rw [h.supply, h.entropy, hproduce]
    -- a limit is a number of 64 bits, so counting up to it never wraps around
    have hlimit : t.supply.limit cap.toNat kind < 2 ^ 64 :=
      (Nat.min_le_right ..).trans_lt cap.toNat_lt
    rw [RefillLoop.visit, RefillTask.visit, if_pos (hguard.mpr hturn), if_pos hturn, hproduce,
      hproduce']
    cases accepted with
    | true =>
      have hsucc : (l.count kind + 1).toNat = (l.count kind).toNat + 1 := by
        rw [UInt64.toNat_add]
        have hone : (1 : UInt64).toNat = 1 := rfl
        omega
      exact ⟨rfl, rfl, congrArg (· + 1) h.total, h.failure, Nat.le_succ_of_le h.before,
        (decide_eq_true (Nat.lt_succ_of_le h.before)).symm, h.lack_setCount hlimits (by omega)⟩
    | false =>
      have hfull : fullCount.toNat = 2 ^ 64 - 1 := rfl
      exact ⟨rfl, rfl, h.total, h.failure, h.before, h.progressed,
        h.lack_setCount hlimits (by omega)⟩
  · rw [RefillLoop.visit, RefillTask.visit, if_neg (fun hl => hturn (hguard.mp hl)), if_neg hturn]
    exact h

theorem Tracks.round (h : Tracks cap added l t) :
    Tracks cap t.added (l.round cap) t.round := by
  have hfold : ∀ (kinds : List PoolKind) {l : RefillLoop} {t' : RefillTask},
      Tracks cap t.added l t' →
        Tracks cap t.added (kinds.foldl (RefillLoop.visit cap) l) (kinds.foldl RefillTask.visit t') := by
    intro kinds
    induction kinds with
    | nil => exact fun h => h
    | cons kind kinds ih => exact fun h => ih (h.visit kind)
  exact hfold PoolKind.all h.restart

/-- The loop ends, and the task with it. -/
theorem Tracks.ends (h : Tracks cap added l t) {goal : PoolKind → Nat} (hsteady : t.Steady goal) :
    ∃ l' added', Ends cap l l' ∧ Tracks cap added' l' t.run := by
  -- on the number of rounds that the task has left; the loop makes one more, which adds nothing
  induction hn : RefillTask.roundCount t.lack generalizing added l t with
  | zero =>
    have hround := h.round
    rw [RefillTask.round_of_roundCount_zero hn] at hround
    refine ⟨_, t.added, .last ?_, ?_⟩
    · rw [isOver, hround.progressed, decide_eq_false (Nat.lt_irrefl _), Bool.not_false,
        Bool.or_true]
    · rw [RefillTask.run_of_roundCount_zero hn]
      exact hround
  | succ n ih =>
    have hround := h.round
    obtain ⟨hsteady', -⟩ := hsteady.round
    have hadded := hsteady.added_round (by omega)
    have hcount := RefillTask.roundCount_round hsteady
    obtain ⟨l', added', hends, htracks⟩ := ih hround hsteady' (by omega)
    refine ⟨l', added', .next ?_ hends, ?_⟩
    · rw [isOver, hround.failure, hsteady'.failure, hround.progressed, decide_eq_true hadded]
      rfl
    · rw [RefillTask.run_of_roundCount_succ hsteady hn]
      exact htracks

end

end RefillLoop

namespace KeySupply

/-! ## The cycle -/

theorem refillOnce_run (s : KeySupply) (cap : Nat) (e : Entropy) :
    let t := (RefillTask.start s (s.lack cap) e).run
    s.refillOnce cap e = (.ok t.added, t.supply, t.entropy) := by
  intro t
  have hsteady := (RefillTask.steady_start s cap e).run.1
  unfold refillOnce
  simp only [hsteady.failure]
  rfl

/-- The loop gives the answer of the refill. -/
theorem ends_refillOnce (s : KeySupply) (cap : UInt64) (e : Entropy)
    (h : ∀ kind, (s.held kind).length < UInt64.size) :
    ∃ l, RefillLoop.Ends cap (.start s e) l ∧ l.answer = s.refillOnce cap.toNat e := by
  have hsteady := RefillTask.steady_start s cap.toNat e
  obtain ⟨l, added, hends, htracks⟩ := (RefillLoop.tracks_start cap e h).ends hsteady
  refine ⟨l, hends, ?_⟩
  rw [refillOnce_run, RefillLoop.answer, htracks.failure, hsteady.run.1.failure, htracks.total,
    htracks.supply, htracks.entropy]

theorem refillOnce_of_lack_zero {s : KeySupply} {cap : Nat} (h : ∀ kind, s.lack cap kind = 0)
    (e : Entropy) : s.refillOnce cap e = (.ok 0, s, e) := by
  have hcount : RefillTask.roundCount (s.lack cap) ≤ 0 :=
    RefillTask.roundCount_le_iff.mpr (fun kind => Nat.le_of_eq (h kind))
  have hrun : (RefillTask.start s (s.lack cap) e).run = .start s (s.lack cap) e :=
    RefillTask.run_of_roundCount_zero (Nat.le_zero.mp hcount)
  have hrefill := s.refillOnce_run cap e
  simp only [hrun] at hrefill
  rw [hrefill, RefillTask.start]

/-- **A refill cycle.** Whatever the pools hold, with targets that are numbers of 64 bits: the cycle
under a cap ends and never fails. Each pool then holds what it held before, in the same order, and
behind it new items that fit, up to its target or the cap, whichever is lower, or as many as before
if these were more. The answer is the number of new items. A second cycle under no higher cap adds
nothing and answers zero. -/
theorem refillOnce_settled (s : KeySupply) (cap : UInt64) (e : Entropy)
    (htargets : ∀ kind, s.target kind < UInt64.size) :
    ∃ count s' e', s.refillOnce cap.toNat e = (.ok count, s', e') ∧
      (∃ l, RefillLoop.Ends cap (.start s e) l) ∧
      (∀ l, RefillLoop.Ends cap (.start s e) l → l.answer = (.ok count, s', e')) ∧
      (∀ kind, (s'.held kind).length =
        max (s.held kind).length (min (s.target kind) cap.toNat)) ∧
      (∀ kind, ∃ made, s'.held kind = s.held kind ++ made ∧ ∀ item ∈ made, item.Fits kind) ∧
      s'.sizes.total = s.sizes.total + count ∧
      ∀ cap' ≤ cap, ∀ e'', s'.refillOnce cap'.toNat e'' = (.ok 0, s', e'') := by
  obtain ⟨s', e', hrefill, hbalance⟩ := s.refillOnce_eq cap.toNat e
  obtain ⟨hsteady, hlack⟩ := (RefillTask.steady_start s cap.toNat e).run
  have hsupply : (RefillTask.start s (s.lack cap.toNat) e).run.supply = s' := by
    have hrun := hrefill.symm.trans (s.refillOnce_run cap.toNat e)
    exact (Prod.mk.inj (Prod.mk.inj hrun).2).1.symm
  have hsizes : ∀ kind, (s'.held kind).length =
      max (s.held kind).length (min (s.target kind) cap.toNat) := by
    intro kind
    rw [← hsteady.reached, hlack, hsupply, Nat.add_zero]
  obtain ⟨l, hends, hanswer⟩ := s.ends_refillOnce cap e
    (fun kind => (s.length_held_le kind).trans_lt (htargets kind))
  refine ⟨_, s', e', hrefill, ⟨l, hends⟩, ?_, hsizes, ?_, hbalance.total, ?_⟩
  · intro l' hends'
    rw [hends'.unique hends, hanswer, hrefill]
  · exact fun kind => ⟨_, hbalance.held kind, fun item => hbalance.fits_of_mem⟩
  · intro cap' hcap e''
    refine refillOnce_of_lack_zero (fun kind => ?_) e''
    have hlower : cap'.toNat ≤ cap.toNat := UInt64.le_iff_toNat_le.mp hcap
    rw [lack_eq, limit, hbalance.targets, hsizes]
    omega

/-- From the standard supply, whose targets are all above three, a cycle under a cap of three makes
three items for each of the eight pools. -/
theorem refillOnce_standard :
    ∃ s' e', (new .standard).refillOnce 3 (.ofSeed "standard") = (.ok 24, s', e') ∧
      (∀ kind, (s'.held kind).length = 3) ∧ s'.refillOnce 2 e' = (.ok 0, s', e') := by
  have htargets : ∀ kind, (new .standard).target kind < UInt64.size ∧
      3 ≤ (new .standard).target kind := by decide
  obtain ⟨count, s', e', hrefill, -, -, hsizes, -, htotal, hagain⟩ :=
    (new .standard).refillOnce_settled 3 (.ofSeed "standard") (fun kind => (htargets kind).1)
  have hthree : ∀ kind, (s'.held kind).length = 3 := by
    intro kind
    rw [hsizes, held_new]
    exact Nat.min_eq_right (htargets kind).2
  have hcount : count = 24 := by
    rw [total_eq, total_eq] at htotal
    simp only [hthree, held_new] at htotal
    exact (htotal.trans (Nat.zero_add count)).symm
  subst hcount
  exact ⟨s', e', hrefill, hthree, hagain 2 (by decide) e'⟩

end KeySupply

end Provenance
