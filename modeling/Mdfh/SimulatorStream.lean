import Mdfh.SimulatorEdits

/-!
# The stream of messages

What a message of a run carries: its number, its time and its kind follow from its place
in the stream, and its content refers to the orders that are live before it. The driver
hands every message to a sink and stops when all have been produced.

## Main definitions

* `MarketSimulator.run` — the driver, with a sink as its parameter.
* `Issues` — the bodies that a state can give rise to.
* `Numbered` — what the place of a message determines.

## Main results

* `fill_fills` — the content of one message.
* `MarketSimulator.emit_messages` — the content of all messages.
* `MarketSimulator.run_eq` — the driver's calls of the sink.
-/

namespace Mdfh

open Std Library Library.OrdMap

/-! ## The driver -/

/-- The source's `run`: the sink's state after its calls and how many there were, or `none`
if `fuel` calls of `next` are not enough. -/
def MarketSimulator.run {rng : Rng} {σ : Type} (sink : σ → Message → σ) :
    (fuel : Nat) → MarketSimulator rng → σ → UInt64 →
      Except Fault (Option (MarketSimulator rng × σ × UInt64))
  | 0, _, _, _ => return none
  | fuel + 1, sim, st, n => do
    let (sim, out) ← sim.next
    match out with
    | none => return some (sim, st, n)
    | some m => run sink fuel sim (sink st m.dispatch) (n + 1)

/-! ## Contents -/

/-- The bodies for a symbol in state `s`, with `next` the next order id. -/
inductive Issues (cfg : SimConfig) (sym : SymbolId) (s : SymbolState) (next : OrderId) :
    Body → Prop
  | add {side : Side} {price : Price} {qty : Quantity} (hside : side = .buy ∨ side = .sell)
      (hqty : cfg.minQty ≤ qty ∧ qty ≤ cfg.maxQty) :
      Issues cfg sym s next (.addOrder ⟨sym, next, side, price, qty⟩)
  | cancel {id : OrderId} {o : LiveOrder} (ho : s.orders[id]? = some o) :
      Issues cfg sym s next (.cancelOrder ⟨sym, id⟩)
  | modify {id : OrderId} {o : LiveOrder} {price : Price} {qty : Quantity}
      (ho : s.orders[id]? = some o) (hqty : cfg.minQty ≤ qty ∧ qty ≤ cfg.maxQty) :
      Issues cfg sym s next (.modifyOrder ⟨sym, id, price, qty⟩)
  | trade {id : OrderId} {o : LiveOrder} {qty : Quantity} (ho : s.orders[id]? = some o)
      (hqty : 1 ≤ qty ∧ qty ≤ o.qty) :
      Issues cfg sym s next (.trade ⟨sym, id, o.price, qty, opposite o.side⟩)
  | snapshot : Issues cfg sym s next (.bookSnapshot (makeSnapshot sym s))
  | heartbeat : Issues cfg sym s next .heartbeat

/-- The outcome of a fill that the action mix selects. -/
structure Posts {rng : Rng} (cfg : SimConfig) (sym : SymbolId) (d d' : Draft rng) : Prop where
  seq : d'.out.seq = d.out.seq
  ts : d'.out.ts = d.out.ts
  issues : Issues cfg sym d.s d.nextOrderId d'.out.dispatch.body
  not_heartbeat : d'.out.type ≠ .heartbeat
  not_snapshot : d'.out.type ≠ .bookSnapshot

section
variable {rng : Rng} {cfg : SimConfig} {sym : SymbolId} {d : Draft rng}

theorem randomQty_range (hcfg : cfg.Admitted) (g : rng.State) :
    Ensures Overflows (randomQty rng cfg g) fun r => cfg.minQty ≤ r.1 ∧ r.1 ≤ cfg.maxQty := by
  refine (uniform_ensures (UInt32.le_iff_toNat_le.mp hcfg.qty_le) g).bind fun ⟨q, g'⟩ hq => ?_
  have hvalue : (UInt32.ofNat q).toNat = q :=
    UInt32.toNat_ofNat_of_lt' (hq.2.trans_lt cfg.maxQty.toNat_lt)
  simp only [Ensures.pure, UInt32.le_iff_toNat_le, hvalue]
  exact hq

theorem fillAdd_posts (hcfg : cfg.Admitted) :
    Ensures Overflows (fillAdd cfg sym d) (Posts cfg sym d) := by
  refine (uniform_ensures (Nat.zero_le 1) d.g).bind fun ⟨coin, g⟩ _ => ?_
  refine (choosePrice_overflows _ _ g).bind fun ⟨price, g⟩ _ => ?_
  refine (randomQty_range hcfg g).bind fun ⟨qty, g⟩ hqty => ?_
  refine ⟨rfl, rfl, .add ?_ hqty, by simp, by simp⟩
  split_ifs <;> simp

theorem fillCancel_posts (h : d.s.Registered) :
    Ensures Overflows (fillCancel sym d) fun r => ∀ d', r = some d' → Posts cfg sym d d' := by
  unfold fillCancel
  split_ifs with hempty
  · exact Ensures.pure_none
  refine (h.randomLive_ensures (by simpa using hempty) d.g).bind fun ⟨id, g⟩ ⟨o, ho⟩ => ?_
  obtain ⟨index, liveIds, heq, -⟩ := h.unregisterOrder_eq ho
  refine (Ensures.of_eq_ok heq (Q := fun _ => True) trivial).bind fun s _ => ?_
  rintro d' ⟨⟩
  exact ⟨rfl, rfl, .cancel ho, by simp, by simp⟩

theorem fillModify_posts (hcfg : cfg.Admitted) (h : d.s.Registered) :
    Ensures Overflows (fillModify cfg sym d) fun r => ∀ d', r = some d' → Posts cfg sym d d' := by
  unfold fillModify
  split_ifs with hempty
  · exact Ensures.pure_none
  refine (h.randomLive_ensures (by simpa using hempty) d.g).bind fun ⟨id, g⟩ ⟨o, ho⟩ => ?_
  refine (access_ensures ho).bind fun o' heq => ?_
  obtain rfl : o' = o := heq
  refine (choosePrice_overflows _ _ g).bind fun ⟨price, g⟩ _ => ?_
  refine (randomQty_range hcfg g).bind fun ⟨qty, g⟩ hqty => ?_
  rintro d' ⟨⟩
  exact ⟨rfl, rfl, .modify ho hqty, by simp, by simp⟩

theorem fillTrade_posts (h : d.s.Registered) (hstock : d.s.Stocked) :
    Ensures Overflows (fillTrade sym d) fun r => ∀ d', r = some d' → Posts cfg sym d d' := by
  unfold fillTrade
  split_ifs with hempty
  · exact Ensures.pure_none
  refine (h.randomLive_ensures (by simpa using hempty) d.g).bind fun ⟨id, g⟩ ⟨o, ho⟩ => ?_
  refine (access_ensures ho).bind fun o' heq => ?_
  obtain rfl : o' = o := heq
  refine (uniform_ensures (Nat.succ_le_of_lt (hstock id o' ho)) g).bind fun ⟨fill, g⟩ hfill => ?_
  have hvalue : (UInt32.ofNat fill).toNat = fill :=
    UInt32.toNat_ofNat_of_lt' (hfill.2.trans_lt o'.qty.toNat_lt)
  have hqty : 1 ≤ UInt32.ofNat fill ∧ UInt32.ofNat fill ≤ o'.qty := by
    simp only [UInt32.le_iff_toNat_le, hvalue]
    exact hfill
  by_cases hall : UInt32.ofNat fill ≥ o'.qty
  · obtain ⟨index, liveIds, heq, -⟩ := h.unregisterOrder_eq ho
    simp only [hall, if_true]
    refine (Ensures.of_eq_ok heq (Q := fun _ => True) trivial).bind fun s _ => ?_
    rintro d' ⟨⟩
    exact ⟨rfl, rfl, .trade ho hqty, by simp, by simp⟩
  · simp only [hall, if_false]
    rintro d' ⟨⟩
    exact ⟨rfl, rfl, .trade ho hqty, by simp, by simp⟩

theorem fillMix_posts (hcfg : cfg.Admitted) (h : d.s.Registered) (hstock : d.s.Stocked)
    (r : Int32) :
    Ensures Overflows (MarketSimulator.fillMix cfg r sym d) fun done =>
      ∀ d', done = some d' → Posts cfg sym d d' := by
  unfold MarketSimulator.fillMix
  split_ifs
  · refine Ensures.map ((fillAdd_posts hcfg).mono fun d' hd' => ?_)
    rintro _ ⟨⟩
    exact hd'
  · exact fillCancel_posts h
  · exact fillModify_posts hcfg h
  · exact fillTrade_posts h hstock

/-- Draws made before are forgotten. -/
theorem Posts.of_state {g : rng.State} {d' : Draft rng} (h : Posts cfg sym { d with g } d') :
    Posts cfg sym d d' := ⟨h.seq, h.ts, h.issues, h.not_heartbeat, h.not_snapshot⟩

/-- The message number `idx`: its kind is that of the intervals, or one of the action mix. -/
structure Fills (cfg : SimConfig) (idx : UInt64) (sym : SymbolId) (d d' : Draft rng) : Prop where
  seq : d'.out.seq = d.out.seq
  ts : d'.out.ts = d.out.ts
  issues : Issues cfg sym d.s d.nextOrderId d'.out.dispatch.body
  heartbeat : d'.out.type = .heartbeat ↔
    cfg.heartbeatInterval ≠ 0 ∧ idx % cfg.heartbeatInterval = 0
  snapshot : d'.out.type = .bookSnapshot ↔
    ¬(cfg.heartbeatInterval ≠ 0 ∧ idx % cfg.heartbeatInterval = 0) ∧
      cfg.snapshotInterval ≠ 0 ∧ idx % cfg.snapshotInterval = 0

theorem fill_fills (hcfg : cfg.Admitted) (h : d.s.Registered) (hstock : d.s.Stocked)
    (idx : UInt64) :
    Ensures Overflows (MarketSimulator.fill cfg idx sym d) (Fills cfg idx sym d) := by
  unfold MarketSimulator.fill
  split_ifs with hbeat hsnap
  · exact ⟨rfl, rfl, .heartbeat, by simp [hbeat], by simp [hbeat]⟩
  · exact ⟨rfl, rfl, .snapshot, by simp [hbeat], by simp [hbeat, hsnap]⟩
  have hposts {d' : Draft rng} (hd' : Posts cfg sym d d') : Fills cfg idx sym d d' :=
    ⟨hd'.seq, hd'.ts, hd'.issues, iff_of_false hd'.not_heartbeat hbeat,
      iff_of_false hd'.not_snapshot fun hs => hsnap hs.2⟩
  refine (uniform_ensures (Nat.zero_le 99) d.g).bind fun ⟨r, g⟩ _ => ?_
  refine (fillMix_posts (d := { d with g }) hcfg h hstock (Int32.ofNat r)).bind ?_
  intro done hdone
  cases done with
  | some d' => exact hposts (hdone d' rfl).of_state
  | none => exact (fillAdd_posts hcfg).mono fun d' hd' => hposts hd'.of_state

end

/-! ## Places -/

/-- What the place of a message in the stream determines. -/
structure Numbered (cfg : SimConfig) (k : Nat) (m : GeneratedMessage) : Prop where
  seq : m.seq = UInt32.ofNat (k + 1)
  ts : m.ts = cfg.tsStart + UInt64.ofNat k * cfg.tsStepNs
  heartbeat : m.type = .heartbeat ↔ cfg.heartbeatInterval.toNat ∣ k + 1
  snapshot : m.type = .bookSnapshot ↔
    ¬cfg.heartbeatInterval.toNat ∣ k + 1 ∧ cfg.snapshotInterval.toNat ∣ k + 1

/-- An interval of zero is never due. -/
theorem due_iff {interval idx : UInt64} {k : Nat} (hidx : idx.toNat = k + 1) :
    interval ≠ 0 ∧ idx % interval = 0 ↔ interval.toNat ∣ k + 1 := by
  rw [Nat.dvd_iff_mod_eq_zero, ← hidx, ← UInt64.toNat_mod]
  constructor
  · rintro ⟨-, hmod⟩
    rw [hmod]
    rfl
  · intro hmod
    have hmod : idx % interval = 0 := UInt64.toNat_inj.mp hmod
    refine ⟨?_, hmod⟩
    rintro rfl
    rw [UInt64.mod_zero] at hmod
    simp [hmod] at hidx

namespace MarketSimulator

variable {rng : Rng} {cfg : SimConfig} {sim sim' : MarketSimulator rng}
  {ms ms' : List GeneratedMessage}

/-- The message is about a symbol of this state, and the next order id is not live in any. -/
def Issued (sim : MarketSimulator rng) (m : GeneratedMessage) : Prop :=
  ∃ (sym : SymbolId) (s : SymbolState), sim.symbols[sym.toNat]? = some s ∧
    Issues sim.cfg sym s sim.nextOrderId m.dispatch.body ∧
    ∀ t ∈ sim.symbols, t.orders[sim.nextOrderId]? = none

/-- The counters follow from the number of messages produced. -/
structure Timeline (cfg : SimConfig) (sim : MarketSimulator rng) : Prop where
  registry : sim.Registry cfg
  produced_le : sim.produced.toNat ≤ cfg.numMessages.toNat
  nextSeq : sim.nextSeq = UInt32.ofNat (sim.produced.toNat + 1)
  ts : sim.ts = cfg.tsStart + sim.produced * cfg.tsStepNs

theorem new_timeline (rng : Rng) (cfg : SimConfig) :
    Ensures Overflows (new rng cfg) fun sim => sim.Timeline cfg ∧ sim.produced = 0 := by
  refine ((new_registry rng cfg).and ((new_symbols rng cfg).weaken fun _ _ => trivial)).mono ?_
  rintro _ ⟨⟨hreg, -⟩, symbols, rfl, -, -⟩
  exact ⟨⟨hreg, Nat.zero_le _, rfl, by simp⟩, rfl⟩

theorem next_numbered (hcfg : cfg.Admitted) (h : sim.Timeline cfg) :
    Ensures Overflows sim.next fun r =>
      (r = (sim, none) ∧ sim.produced.toNat = cfg.numMessages.toNat) ∨
        ∃ m, r.2 = some m ∧ Numbered cfg sim.produced.toNat m ∧ sim.Issued m ∧
          r.1.Timeline cfg ∧ r.1.produced.toNat = sim.produced.toNat + 1 := by
  have hreg := h.registry
  obtain rfl := hreg.cfg_eq
  have hnext := next_edits hcfg hreg
  suffices hcontent : Ensures (fun _ => True) sim.next fun r =>
      (r = (sim, none) ∧ sim.produced.toNat = sim.cfg.numMessages.toNat) ∨
        ∃ m, r.2 = some m ∧ Numbered sim.cfg sim.produced.toNat m ∧ sim.Issued m ∧
          sim.produced < sim.cfg.numMessages ∧ r.1.produced = sim.produced + 1 ∧
          r.1.nextSeq = sim.nextSeq + 1 ∧ r.1.ts = sim.ts + sim.cfg.tsStepNs by
    refine (hnext.and hcontent).mono ?_
    rintro r ⟨hedits, hdone | ⟨m, hm, hnumbered, hissued, hmore, hproduced, hseq, hts⟩⟩
    · exact .inl hdone
    have hmore' := UInt64.lt_iff_toNat_lt.mp hmore
    have hsucc : r.1.produced.toNat = sim.produced.toNat + 1 := by
      have hbound := UInt64.toNat_lt sim.cfg.numMessages
      rw [hproduced, UInt64.toNat_add, UInt64.toNat_one]
      omega
    have hreg' : r.1.Registry sim.cfg := by
      rcases hedits with ⟨rfl, -⟩ | ⟨i, s, posted, s', -, hadvances⟩
      · exact hreg
      · exact hadvances.registry hreg
    refine .inr ⟨m, hm, hnumbered, hissued, ⟨hreg', hsucc.trans_le hmore', ?_, ?_⟩, hsucc⟩
    · rw [hseq, h.nextSeq, hsucc]
      exact (UInt32.ofNat_add _ 1).symm
    · rw [hts, h.ts, hproduced, UInt64.add_mul, UInt64.one_mul, UInt64.add_assoc]
  unfold next
  split_ifs with hdone
  · exact .inl ⟨rfl, Nat.le_antisymm h.produced_le (UInt64.le_iff_toNat_le.mp hdone)⟩
  have hmore := UInt64.not_le.mp hdone
  have hidx : (sim.produced + 1).toNat = sim.produced.toNat + 1 := by
    have hmore' := UInt64.lt_iff_toNat_lt.mp hmore
    have hbound := UInt64.toNat_lt sim.cfg.numMessages
    rw [UInt64.toNat_add, UInt64.toNat_one]
    omega
  refine (uniform_ensures (Nat.zero_le _) sim.g).bind ?_
  rintro ⟨i, g⟩ hi
  have hlt : i < sim.symbols.length := hreg.length ▸ lt_numSymbols hcfg hi.2
  obtain ⟨sym, rfl⟩ : ∃ sym : SymbolId, sym.toNat = i :=
    ⟨UInt32.ofNat i, UInt32.toNat_ofNat_of_lt' ((hreg.length ▸ hlt).trans (UInt32.toNat_lt _))⟩
  have hget := List.getElem?_eq_getElem hlt
  have hmem := List.getElem_mem hlt
  refine (access_ensures hget).bind fun s hs => ?_
  rw [← hs] at hget hmem
  simp only [UInt32.ofNat_toNat]
  refine ((fill_fills hcfg (hreg.registered s hmem) (hreg.stocked s hmem) _).weaken
    fun _ _ => trivial).bind fun d hd => ?_
  refine .inr ⟨d.out, rfl, ⟨hd.seq.trans h.nextSeq, ?_, ?_, ?_⟩, ?_, hmore, rfl, rfl, rfl⟩
  · rw [UInt64.ofNat_toNat]
    exact hd.ts.trans h.ts
  · rw [hd.heartbeat, due_iff hidx]
  · rw [hd.snapshot, due_iff hidx, due_iff hidx]
  · exact ⟨sym, s, hget, hd.issues, fun t ht => hreg.fresh hmore ht⟩

/-! ## Runs -/

theorem emit_numbered (rng : Rng) (hcfg : cfg.Admitted) (n : Nat) :
    Ensures Overflows (emit rng cfg n) fun r => r.1.Timeline cfg ∧
      r.2.length = r.1.produced.toNat ∧ r.1.produced.toNat = min n cfg.numMessages.toNat ∧
      ∀ (k : Nat) m, r.2[k]? = some m → Numbered cfg k m ∧
        ∃ simk, emit rng cfg k = .ok (simk, r.2.take k) ∧ simk.Issued m := by
  induction n with
  | zero =>
    refine (new_timeline rng cfg).bind fun sim ⟨h, hproduced⟩ => ?_
    have hzero : sim.produced.toNat = 0 := congrArg UInt64.toNat hproduced
    exact ⟨h, hzero.symm, hzero.trans (Nat.zero_min _).symm, nofun⟩
  | succ n ih =>
    refine ih.with_eq.bind fun ⟨sim, ms⟩ ⟨hemit, h, hlen, hproduced, hall⟩ => ?_
    simp only at h hlen hproduced hall
    refine (next_numbered hcfg h).bind fun ⟨sim', out⟩ hnext => ?_
    rcases hnext with ⟨heq, hdone⟩ | ⟨m, hm, hnumbered, hissued, h', hsucc⟩
    · obtain ⟨rfl, rfl⟩ := Prod.mk.inj heq
      simp only [Option.toList_none, List.append_nil]
      exact ⟨h, hlen, by omega, hall⟩
    · obtain rfl : out = some m := hm
      have hle := h'.produced_le
      simp only at hsucc hle
      have hn : sim.produced.toNat = n := by omega
      refine ⟨h', ?_, ?_, fun k m' hk => ?_⟩
      · simp [hlen, hsucc]
      · simp only
        omega
      · simp only [Option.toList_some] at hk ⊢
        rcases Nat.lt_or_ge k ms.length with hlt | hge
        · rw [List.getElem?_append_left hlt] at hk
          rw [List.take_append_of_le_length hlt.le]
          exact hall k m' hk
        · obtain rfl : k = ms.length := by
            have hlt := (List.getElem?_eq_some_iff.mp hk).1
            simp at hlt
            omega
          obtain rfl : m = m' := by simpa using hk
          rw [List.take_left, hlen]
          exact ⟨hnumbered, sim, hn ▸ hemit, hissued⟩

/-- Whatever is drawn and whatever the weights, whose sums wrap: the messages carry consecutive
numbers, equidistant times and the kinds that the intervals ask for. Every order they name is
live in its symbol before the message, new orders have an id that is live nowhere, quantities
are those the configuration and the live order allow, and a trade is at the price of the order
it hits. -/
theorem emit_messages (rng : Rng) (hcfg : cfg.Admitted) (n : Nat)
    (hprices : emit rng cfg n ≠ .error .priceOverflow) :
    ∃ sim ms, emit rng cfg n = .ok (sim, ms) ∧ ms.length = min n cfg.numMessages.toNat ∧
      ∀ (k : Nat) m, ms[k]? = some m → Numbered cfg k m ∧
        ∃ simk, emit rng cfg k = .ok (simk, ms.take k) ∧ simk.Issued m := by
  obtain ⟨⟨sim, ms⟩, hemit, -, hlen, hproduced, hall⟩ :=
    (emit_numbered rng hcfg n).exists_ok fun e he => he ▸ hprices
  exact ⟨sim, ms, hemit, hlen.trans hproduced, hall⟩

theorem emit_messages_short :
    ∃ sim ms, emit Loopback.congruential Loopback.shortConfig 13 = .ok (sim, ms) ∧
      ms.length = 12 ∧ ∀ (k : Nat) m, ms[k]? = some m → Numbered Loopback.shortConfig k m ∧
        ∃ simk, emit Loopback.congruential Loopback.shortConfig k = .ok (simk, ms.take k) ∧
          simk.Issued m :=
  emit_messages Loopback.congruential Loopback.shortConfig_valid.admitted 13 Loopback.emit_short

/-! ## The driver's calls -/

/-- A longer run begins with the messages of a shorter one. -/
theorem emit_prefix {n k : Nat} (hkn : k ≤ n) (h : emit rng cfg k = .ok (sim, ms))
    (h' : emit rng cfg n = .ok (sim', ms')) : ms <+: ms' := by
  induction hkn generalizing sim' ms' with
  | refl =>
    obtain ⟨rfl, rfl⟩ := Prod.mk.inj (Except.ok.inj (h.symm.trans h'))
    exact List.prefix_rfl
  | @step n _ ih =>
    cases hn : emit rng cfg n with
    | error f =>
      rw [emit, hn] at h'
      cases h'
    | ok r =>
      rw [emit, hn] at h'
      change (r.1.next >>= _) = _ at h'
      cases hnext : r.1.next with
      | error f =>
        rw [hnext] at h'
        cases h'
      | ok r' =>
        rw [hnext] at h'
        obtain ⟨-, rfl⟩ := Prod.mk.inj (Except.ok.inj h')
        exact (ih hn).trans (List.prefix_append _ _)

theorem emit_succ {n : Nat} (h : emit rng cfg n = .ok (sim, ms)) {out : Option GeneratedMessage}
    (hnext : sim.next = .ok (sim', out)) : emit rng cfg (n + 1) = .ok (sim', ms ++ out.toList) := by
  rw [emit, h]
  change (sim.next >>= _) = _
  rw [hnext]
  rfl

/-- In a run with a result, every call before the last message produces one. -/
theorem next_of_lt (hcfg : cfg.Admitted)
    (hemit : emit rng cfg cfg.numMessages.toNat = .ok (sim', ms')) {k : Nat}
    (h : emit rng cfg k = .ok (sim, ms)) (hk : k < cfg.numMessages.toNat) :
    ∃ sim₁ m, sim.next = .ok (sim₁, some m) ∧ emit rng cfg (k + 1) = .ok (sim₁, ms ++ [m]) ∧
      ms'[k]? = some m := by
  have hcount := emit_numbered rng hcfg k
  rw [h] at hcount
  obtain ⟨htime, hlen, hproduced, -⟩ := hcount
  simp only at htime hlen hproduced
  have hnext := next_numbered hcfg htime
  cases hout : sim.next with
  | error f =>
    have herror : emit rng cfg (k + 1) = .error f := by
      rw [emit, h]
      change (sim.next >>= _) = _
      rw [hout]
      rfl
    cases (emit_of_error herror hk).symm.trans hemit
  | ok r =>
    obtain ⟨sim₁, out⟩ := r
    rw [hout] at hnext
    rcases hnext with ⟨-, hdone⟩ | ⟨m, hm, -⟩
    · omega
    · obtain rfl : out = some m := hm
      have hsucc := emit_succ h hout
      have hget : (ms ++ [m])[k]? = some m := by
        rw [List.getElem?_append_right (by omega), show k - ms.length = 0 by omega]
        rfl
      obtain ⟨t, rfl⟩ := emit_prefix hk hsucc hemit
      refine ⟨sim₁, m, rfl, hsucc, ?_⟩
      exact (List.getElem?_append_left (List.getElem?_eq_some_iff.mp hget).1).trans hget

theorem next_of_done (hcfg : cfg.Admitted)
    (h : emit rng cfg cfg.numMessages.toNat = .ok (sim, ms)) : sim.next = .ok (sim, none) := by
  have hcount := emit_numbered rng hcfg cfg.numMessages.toNat
  rw [h] at hcount
  obtain ⟨htime, -, hproduced, -⟩ := hcount
  obtain rfl := htime.registry.cfg_eq
  simp only [Nat.min_self] at hproduced
  exact if_pos (UInt64.le_iff_toNat_le.mpr hproduced.ge)

/-- From the state after `k` messages the driver hands over the messages that are left. -/
theorem run_from {σ : Type} (sink : σ → Message → σ) (hcfg : cfg.Admitted)
    (hemit : emit rng cfg cfg.numMessages.toNat = .ok (sim', ms')) {k : Nat}
    (h : emit rng cfg k = .ok (sim, ms)) (hk : k ≤ cfg.numMessages.toNat) {fuel : Nat}
    (hfuel : cfg.numMessages.toNat < fuel + k) (st : σ) (n : UInt64) :
    run sink fuel sim st n = .ok (some (sim',
      ((ms'.drop k).map GeneratedMessage.dispatch).foldl sink st,
      n + UInt64.ofNat (cfg.numMessages.toNat - k))) := by
  induction fuel generalizing sim ms k st n with
  | zero => omega
  | succ fuel ih =>
    rw [run]
    rcases Nat.eq_or_lt_of_le hk with rfl | hlt
    · obtain ⟨rfl, rfl⟩ := Prod.mk.inj (Except.ok.inj (h.symm.trans hemit))
      have hcount := emit_numbered rng hcfg cfg.numMessages.toNat
      rw [h] at hcount
      obtain ⟨-, hlen, hproduced, -⟩ := hcount
      simp only [Nat.min_self] at hlen hproduced
      have hdrop : ms.drop cfg.numMessages.toNat = [] :=
        List.drop_eq_nil_of_le (hlen.trans hproduced).le
      rw [next_of_done hcfg h, hdrop, Nat.sub_self]
      exact congrArg (fun n => Except.ok (some (sim, st, n))) (UInt64.add_zero n).symm
    · obtain ⟨sim₁, m, hnext, hemit₁, hget⟩ := next_of_lt hcfg hemit h hlt
      have htail := ih hemit₁ hlt (by omega) (sink st m.dispatch) (n + 1)
      obtain ⟨hlt', hget'⟩ := List.getElem?_eq_some_iff.mp hget
      have hleft : cfg.numMessages.toNat - k = 1 + (cfg.numMessages.toNat - (k + 1)) := by omega
      rw [hnext, List.drop_eq_getElem_cons hlt', hget', hleft, UInt64.ofNat_add, ← UInt64.add_assoc]
      exact htail

/-- A call of `next` for each message that is left is not enough. -/
theorem run_none {σ : Type} (sink : σ → Message → σ) (hcfg : cfg.Admitted)
    (hemit : emit rng cfg cfg.numMessages.toNat = .ok (sim', ms')) {k : Nat}
    (h : emit rng cfg k = .ok (sim, ms)) {fuel : Nat} (hfuel : fuel + k ≤ cfg.numMessages.toNat)
    (st : σ) (n : UInt64) : run sink fuel sim st n = .ok none := by
  induction fuel generalizing sim ms k st n with
  | zero => rfl
  | succ fuel ih =>
    obtain ⟨sim₁, m, hnext, hemit₁, -⟩ := next_of_lt hcfg hemit h (by omega)
    rw [run, hnext]
    exact ih hemit₁ (by omega) (sink st m.dispatch) (n + 1)

/-- The driver calls its sink once for each message of the run, in order, and returns the
configured number of messages; it needs exactly one more call of `next` than that. -/
theorem run_eq (rng : Rng) (hcfg : cfg.Admitted)
    (hprices : emit rng cfg cfg.numMessages.toNat ≠ .error .priceOverflow) {σ : Type}
    (sink : σ → Message → σ) :
    ∃ sim₀ sim ms, new rng cfg = .ok sim₀ ∧
      emit rng cfg cfg.numMessages.toNat = .ok (sim, ms) ∧ ms.length = cfg.numMessages.toNat ∧
      ∀ (fuel : Nat) (st : σ), run sink fuel sim₀ st 0 = .ok
        (if cfg.numMessages.toNat < fuel then
          some (sim, (ms.map GeneratedMessage.dispatch).foldl sink st, cfg.numMessages)
        else none) := by
  obtain ⟨⟨sim, ms⟩, hemit, -, hlen, hproduced, -⟩ :=
    (emit_numbered rng hcfg cfg.numMessages.toNat).exists_ok fun e he => he ▸ hprices
  simp only [Nat.min_self] at hlen hproduced
  cases hnew : new rng cfg with
  | error f =>
    have hzero : emit rng cfg 0 = .error f := by
      rw [emit, hnew]
      rfl
    cases (emit_of_error hzero (Nat.zero_le _)).symm.trans hemit
  | ok sim₀ =>
    have hzero : emit rng cfg 0 = .ok (sim₀, []) := by
      rw [emit, hnew]
      rfl
    refine ⟨sim₀, sim, ms, rfl, hemit, hlen.trans hproduced, fun fuel st => ?_⟩
    split_ifs with hfuel
    · have hrun := run_from sink hcfg hemit hzero (Nat.zero_le _) hfuel st 0
      rwa [List.drop_zero, Nat.sub_zero, UInt64.ofNat_toNat, UInt64.zero_add] at hrun
    · exact run_none sink hcfg hemit hzero (Nat.le_of_not_lt hfuel) st 0

/-- A sink that counts its calls. -/
theorem run_eq_short :
    ∃ sim₀ sim ms, new Loopback.congruential Loopback.shortConfig = .ok sim₀ ∧
      emit Loopback.congruential Loopback.shortConfig 12 = .ok (sim, ms) ∧ ms.length = 12 ∧
      run (fun n _ => n + 1) 12 sim₀ 0 0 = .ok none ∧
      run (fun n _ => n + 1) 13 sim₀ 0 0 = .ok (some (sim,
        (ms.map GeneratedMessage.dispatch).foldl (fun n _ => n + 1) 0, 12)) := by
  have hprices : emit Loopback.congruential Loopback.shortConfig 12 ≠ .error .priceOverflow :=
    fun hfault => Loopback.emit_short (emit_of_error hfault (Nat.le_succ 12))
  obtain ⟨sim₀, sim, ms, hnew, hemit, hlen, hrun⟩ := run_eq Loopback.congruential
    Loopback.shortConfig_valid.admitted hprices fun (n : Nat) _ => n + 1
  refine ⟨sim₀, sim, ms, hnew, hemit, hlen, ?_, ?_⟩
  · exact (hrun 12 0).trans (congrArg Except.ok (if_neg (Nat.lt_irrefl 12)))
  · exact (hrun 13 0).trans (congrArg Except.ok (if_pos (Nat.lt_succ_self 12)))

end MarketSimulator

end Mdfh
