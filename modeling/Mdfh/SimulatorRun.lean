import Mdfh.SimulatorFills

/-!
# The simulator and the receiver stay in step

The simulator's messages are encoded and fed to a fresh receiver one by one. After every
message both sides hold the same flat list of orders for each symbol, so the receiver has
rejected nothing, its books hold the simulator's live orders, and none of them is crossed.

## Main definitions

* `Loopback` — the simulator with a feed handler and a book builder at its output.
* `Loopback.Consistent` — what holds between the two.

## Main results

* `MarketSimulator.next_ensures`, `FeedHandler.Reconstructs.consume` — one message.
* `Loopback.run_consistent` — every run, whatever is drawn.
-/

namespace Mdfh

open Std Library Library.Keyed Library.OrdMap

/-! ## The sending side -/

namespace MarketSimulator

variable {rng : Rng} {cfg : SimConfig} {sim : MarketSimulator rng} {R : SymbolId → Reference}

/-- Each symbol has the orders of one flat list; there is none outside the range. -/
structure Inv (cfg : SimConfig) (sim : MarketSimulator rng) (R : SymbolId → Reference) : Prop where
  cfg_eq : sim.cfg = cfg
  length : sim.symbols.length = cfg.numSymbols.toNat
  symbols : ∀ (sym : SymbolId) s, sim.symbols[sym.toNat]? = some s →
    Simulates cfg sim.produced.toNat sim.nextOrderId s (R sym)
  outside : ∀ sym : SymbolId, sim.symbols[sym.toNat]? = none → R sym = []
  ids : sim.nextOrderId.toNat ≤ sim.produced.toNat + 1
  produced_le : sim.produced.toNat ≤ cfg.numMessages.toNat
  nextSeq : sim.nextSeq = UInt32.ofNat (sim.produced.toNat + 1)

theorem new_ensures (rng : Rng) (hcfg : cfg.Valid) :
    Ensures Overflows (new rng cfg) fun sim => sim.Inv cfg (fun _ => []) ∧ sim.produced = 0 := by
  have hstep := Int64.le_iff_toInt_le.mp hcfg.step_nonneg
  have htick := Int64.le_iff_toInt_le.mp hcfg.tick_le
  refine (new_symbols rng cfg).mono ?_
  rintro _ ⟨symbols, rfl, hlen, hall⟩
  refine ⟨⟨rfl, hlen, ?_, fun _ _ => rfl, le_rfl, Nat.zero_le _, rfl⟩, rfl⟩
  intro sym s hs
  obtain ⟨i, refMid, rfl, hmid⟩ := hall s (List.mem_of_getElem? hs)
  have hnonneg : 0 ≤ (i : Int) * cfg.symbolPriceStep.toInt :=
    mul_nonneg (Int.natCast_nonneg i) hstep
  have hlow : cfg.tick.toInt ≤ refMid.toInt := by omega
  exact ⟨.empty refMid, .nil cfg, hlow, le_rfl, nofun⟩

/-- One symbol moves on, the others stay as they are. -/
theorem Inv.advance (h : sim.Inv cfg R) (hmore : sim.produced.toNat < cfg.numMessages.toNat)
    {sym : SymbolId} {s s' : SymbolState} (hget : sim.symbols[sym.toNat]? = some s)
    {next' : OrderId} {R' : Reference}
    (hsym : Simulates cfg (sim.produced.toNat + 1) next' s' R')
    (hge : sim.nextOrderId.toNat ≤ next'.toNat) (hle : next'.toNat ≤ sim.nextOrderId.toNat + 1)
    (g : rng.State) (ts : TimestampNs) :
    let sim' : MarketSimulator rng := { sim with
      g, ts
      symbols := sim.symbols.set sym.toNat s'
      produced := sim.produced + 1
      nextSeq := sim.nextSeq + 1
      nextOrderId := next' }
    sim'.Inv cfg (Function.update R sym R') ∧ sim'.produced.toNat = sim.produced.toNat + 1 := by
  intro sim'
  have hlt : sym.toNat < sim.symbols.length := (List.getElem?_eq_some_iff.mp hget).1
  have hproduced : sim'.produced.toNat = sim.produced.toNat + 1 := by
    have hbound := UInt64.toNat_lt cfg.numMessages
    rw [UInt64.toNat_add, UInt64.toNat_one]
    omega
  have hother {sym' : SymbolId} (hne : sym' ≠ sym) : sym.toNat ≠ sym'.toNat :=
    fun heq => hne (UInt32.toNat_inj.mp heq.symm)
  refine ⟨⟨h.cfg_eq, List.length_set.trans h.length, ?_, ?_, ?_, hproduced.trans_le hmore, ?_⟩,
    hproduced⟩
  · intro sym' t ht
    rw [hproduced]
    by_cases heq : sym' = sym
    · subst heq
      obtain rfl : s' = t := Option.some.inj ((List.getElem?_set_self hlt).symm.trans ht)
      rw [Function.update_self]
      exact hsym
    · rw [List.getElem?_set_ne (hother heq)] at ht
      rw [Function.update_of_ne heq]
      exact (h.symbols sym' t ht).mono (Nat.le_succ _) hge
  · intro sym' hnone
    by_cases heq : sym' = sym
    · subst heq
      exact absurd ((List.getElem?_set_self hlt).symm.trans hnone) nofun
    · rw [List.getElem?_set_ne (hother heq)] at hnone
      rw [Function.update_of_ne heq]
      exact h.outside sym' hnone
  · rw [hproduced]
    exact hle.trans (Nat.succ_le_succ h.ids)
  · rw [hproduced, show sim'.nextSeq = sim.nextSeq + 1 from rfl, h.nextSeq]
    exact (UInt32.ofNat_add _ 1).symm

/-- One call: the next message, with the number and the operation the receiver expects, or
nothing because the configured number of messages is reached. -/
theorem next_ensures (hcfg : cfg.Valid) (h : sim.Inv cfg R) :
    Ensures Overflows sim.next fun r =>
      (r = (sim, none) ∧ sim.produced.toNat = cfg.numMessages.toNat) ∨
        ∃ m sym R', r.2 = some m ∧ m.seq = sim.nextSeq ∧ Emits sym (R sym) m R' ∧
          r.1.Inv cfg (Function.update R sym R') ∧
          r.1.produced.toNat = sim.produced.toNat + 1 := by
  obtain rfl := h.cfg_eq
  unfold next
  split_ifs with hdone
  · exact .inl ⟨rfl, Nat.le_antisymm h.produced_le (UInt64.le_iff_toNat_le.mp hdone)⟩
  have hmore : sim.produced.toNat < sim.cfg.numMessages.toNat :=
    UInt64.lt_iff_toNat_lt.mp (UInt64.not_le.mp hdone)
  refine (uniform_ensures (Nat.zero_le _) sim.g).bind ?_
  rintro ⟨i, g⟩ hi
  have hlt : i < sim.symbols.length := h.length ▸ lt_numSymbols hcfg.admitted hi.2
  obtain ⟨sym, rfl⟩ : ∃ sym : SymbolId, sym.toNat = i :=
    ⟨UInt32.ofNat i, UInt32.toNat_ofNat_of_lt' ((h.length ▸ hlt).trans (UInt32.toNat_lt _))⟩
  have hget := List.getElem?_eq_getElem hlt
  refine (access_ensures hget).bind ?_
  intro s hs
  rw [← hs] at hget
  have hdraft : Drafted sim.cfg sim.produced.toNat (R sym)
      { out := { seq := sim.nextSeq, ts := sim.ts }, s, nextOrderId := sim.nextOrderId, g } :=
    ⟨hcfg, hmore, h.ids, h.symbols sym s hget⟩
  simp only [UInt32.ofNat_toNat]
  refine (fill_ensures hdraft _).bind ?_
  rintro d ⟨R', hR'⟩
  obtain ⟨hinv, hproduced⟩ := h.advance hmore hget hR'.simulates hR'.next_ge hR'.next_le d.g
    (sim.ts + sim.cfg.tsStepNs)
  exact .inr ⟨d.out, sym, R', rfl, hR'.seq, hR'.emits, hinv, hproduced⟩

end MarketSimulator

/-! ## The receiving side -/

/-- A message with the operation that the flat list expects moves the book on. -/
theorem BookBuilder.onMessage_of_emits {b : BookBuilder} {R : SymbolId → Reference}
    {sym : SymbolId} {m : GeneratedMessage} {R' : Reference} (hdr : MessageHeader)
    (h : b.manager.Holds R) (hemits : Emits sym (R sym) m R') :
    let b' := builderHandler.onMessage hdr m.dispatch.body b
    b'.manager.Holds (Function.update R sym R') ∧ b'.stats.rejected = b.stats.rejected ∧
      b'.stats.malformed = b.stats.malformed := by
  unfold Emits at hemits
  cases hop : m.dispatch.body.op with
  | none =>
    rw [hop] at hemits
    obtain rfl : R' = R sym := hemits
    obtain ⟨hmanager, hcounts⟩ := onMessage_of_none hdr hop b
    refine ⟨?_, hcounts⟩
    rw [Function.update_eq_self, hmanager]
    exact h
  | some e =>
    obtain ⟨sym', op⟩ := e
    rw [hop] at hemits
    obtain ⟨rfl, happly⟩ := hemits
    exact onMessage_of_some hdr hop h happly

namespace FeedHandler

/-- The receiver after `n` messages with the numbers 1 to `n`, none of them lost. -/
structure Reconstructs (fh : FeedHandler BookBuilder) (R : SymbolId → Reference) (n : Nat) :
    Prop where
  residual : fh.residual = []
  forwarded : fh.forwarded = UInt64.ofNat n
  dropped : fh.dropped = 0
  malformed : fh.malformed = 0
  books : fh.down.manager.Holds R
  rejected : fh.down.stats.rejected = 0
  badFrames : fh.down.stats.malformed = 0
  seq : (n = 0 ∧ fh.seq.initialized = false) ∨
    (fh.seq.initialized = true ∧ fh.seq.nextExpected = UInt32.ofNat (n + 1))

variable {fh : FeedHandler BookBuilder} {R : SymbolId → Reference} {n : Nat}

theorem Reconstructs.observe (h : fh.Reconstructs R n) :
    (fh.seq.observe (UInt32.ofNat (n + 1))).2.forwards = true ∧
      (fh.seq.observe (UInt32.ofNat (n + 1))).1.initialized = true ∧
      (fh.seq.observe (UInt32.ofNat (n + 1))).1.nextExpected = UInt32.ofNat (n + 1 + 1) := by
  have hnext : UInt32.ofNat (n + 1) + 1 = UInt32.ofNat (n + 1 + 1) := (UInt32.ofNat_add _ _).symm
  rcases h.seq with ⟨-, hinit⟩ | ⟨hinit, hmark⟩
  · obtain ⟨hforwards, hinit', hmark', -⟩ := SequenceTracker.observe_first hinit
    exact ⟨hforwards, hinit', hmark'.trans hnext⟩
  · have hle : fh.seq.nextExpected ≤ UInt32.ofNat (n + 1) := by
      rw [hmark]
      exact UInt32.le_refl _
    obtain ⟨hforwards, hinit', hmark', -⟩ := SequenceTracker.observe_ahead hinit hle
    exact ⟨hforwards, hinit', hmark'.trans hnext⟩

theorem Reconstructs.onMessage {sym : SymbolId} {m : GeneratedMessage} {R' : Reference}
    (h : fh.Reconstructs R n) (hemits : Emits sym (R sym) m R') (hdr : MessageHeader) :
    let b := builderHandler.onMessage hdr m.dispatch.body fh.down
    b.manager.Holds (Function.update R sym R') ∧ b.stats.rejected = 0 ∧ b.stats.malformed = 0 := by
  obtain ⟨hholds, hrejected, hmalformed⟩ := BookBuilder.onMessage_of_emits hdr h.books hemits
  exact ⟨hholds, hrejected.trans h.rejected, hmalformed.trans h.badFrames⟩

/-- One message arrives in order and its operation succeeds. -/
theorem Reconstructs.consume {sym : SymbolId} {m : GeneratedMessage} {R' : Reference}
    (h : fh.Reconstructs R n) (hseq : m.seq = UInt32.ofNat (n + 1))
    (hemits : Emits sym (R sym) m R') :
    Reconstructs (FeedHandler.consume builderHandler m.dispatch.bytes fh).1
      (Function.update R sym R') (n + 1) := by
  obtain ⟨hforwards, hinit, hmark⟩ := h.observe
  obtain ⟨hholds, hrejected, hmalformed⟩ := h.onMessage hemits m.dispatch.header
  have hconsume := consume_receive builderHandler [m.dispatch] fh h.residual
  rw [List.flatMap_singleton] at hconsume
  rw [hconsume, List.foldl_cons, List.foldl_nil, receive, forwardIf_eq,
    show m.dispatch.seq = UInt32.ofNat (n + 1) from hseq, if_pos hforwards]
  refine ⟨rfl, ?_, h.dropped, h.malformed, hholds, hrejected, hmalformed, .inr ⟨hinit, hmark⟩⟩
  rw [UInt64.ofNat_add, ← h.forwarded]
  rfl

end FeedHandler

/-! ## What a book shows -/

theorem Levels.exists_of_first? {cmp : Price → Price → Ordering} [TransCmp cmp]
    [LawfulEqCmp cmp] {m : LevelMap cmp} {Q : List Cell} (h : Levels m Q)
    {best : Price × PriceLevel} (hbest : first? m = some best) :
    ∃ c ∈ Q, c.price = best.2.price := by
  obtain ⟨p, lvl⟩ := best
  have hlvl : m[p]? = some lvl := (first?_eq_some hbest).1
  rw [h] at hlvl
  obtain ⟨hne, rfl⟩ := levelOf_eq_some hlvl
  obtain ⟨c, hc⟩ := List.exists_mem_of_ne_nil _ hne
  obtain ⟨hc, hprice⟩ := List.mem_filter.mp hc
  exact ⟨c, hc, of_decide_eq_true hprice⟩

namespace OrderBook

/-- The order that a book holds under an id, read through its locator. -/
def resting (b : OrderBook) (id : OrderId) : Option LiveOrder := do
  let loc ← b.orders[id]?
  let o ← b.pool.deref loc.it
  return ⟨loc.side, loc.price, o.quantity⟩

/-- The best bid is not below the best ask. -/
def Crossed (b : OrderBook) : Prop :=
  ∃ bid ask, b.bestBid = some bid ∧ b.bestAsk = some ask ∧ ask.price ≤ bid.price

namespace Refines

variable {b : OrderBook} {R : Reference}

theorem resting_eq (h : b.Refines R) (id : OrderId) :
    b.resting id = (lookup Entry.id id R).map Entry.live := by
  obtain ⟨L, hL, -, rfl⟩ := h
  rw [resting, hL.orders, lookup_entry]
  cases hid : lookup Cell.id id L with
  | none => rfl
  | some c =>
    have hderef : b.pool.deref c.location.it = some c.order :=
      hL.deref_of_mem (of_lookup_eq_some hid).1
    simp only [Option.map_some, Option.bind_eq_bind, Option.bind_some, hderef]
    rfl

theorem bestBid_mem (h : b.Refines R) {v : LevelView} (hv : b.bestBid = some v) :
    ∃ e ∈ R, e.onBids = true ∧ e.price = v.price := by
  obtain ⟨L, hL, -, rfl⟩ := h
  obtain ⟨best, hbest, rfl⟩ := Option.map_eq_some_iff.mp hv
  obtain ⟨c, hc, hprice⟩ := hL.bids.exists_of_first? hbest
  obtain ⟨hc, hside⟩ := List.mem_filter.mp hc
  exact ⟨c.entry, List.mem_map_of_mem hc, hside, hprice⟩

theorem bestAsk_mem (h : b.Refines R) {v : LevelView} (hv : b.bestAsk = some v) :
    ∃ e ∈ R, e.onBids = false ∧ e.price = v.price := by
  obtain ⟨L, hL, -, rfl⟩ := h
  obtain ⟨best, hbest, rfl⟩ := Option.map_eq_some_iff.mp hv
  obtain ⟨c, hc, hprice⟩ := hL.asks.exists_of_first? hbest
  obtain ⟨hc, hside⟩ := List.mem_filter.mp hc
  exact ⟨c.entry, List.mem_map_of_mem hc, (Bool.not_eq_true' _).mp hside, hprice⟩

theorem not_crossed {cfg : SimConfig} (h : b.Refines R) (hquoted : R.Quoted cfg) : ¬b.Crossed := by
  rintro ⟨bid, ask, hbid, hask, hle⟩
  obtain ⟨e, he, hon, hprice⟩ := h.bestBid_mem hbid
  obtain ⟨e', he', hoff, hprice'⟩ := h.bestAsk_mem hask
  have hlt := hquoted.uncrossed e he e' he' hon hoff
  have hle := Int64.le_iff_toInt_le.mp hle
  rw [hprice, hprice'] at hlt
  omega

end Refines

end OrderBook

theorem SymbolState.Models.orders_eq {s : SymbolState} {R : Reference} (h : s.Models R)
    (id : OrderId) : s.orders[id]? = (lookup Entry.id id R).map Entry.live := by
  refine Option.ext ?_
  intro o
  rw [h.orders, Option.map_eq_some_iff]
  simp only [h.unique.lookup_eq_some_iff, and_assoc]

/-! ## Both sides together -/

/-- A simulator whose every message is encoded and fed to a receiver. -/
structure Loopback (rng : Rng) where
  sim : MarketSimulator rng
  feed : FeedHandler BookBuilder := { down := {} }

namespace Loopback

variable {rng : Rng} {cfg : SimConfig}

def receive (feed : FeedHandler BookBuilder) (m : GeneratedMessage) : FeedHandler BookBuilder :=
  (feed.consume builderHandler m.dispatch.bytes).1

def step (x : Loopback rng) : Except Fault (Loopback rng) := do
  let (sim, out) ← x.sim.next
  return { sim, feed := out.elim x.feed (receive x.feed) }

/-- The state after `n` calls of `next`. -/
def run (rng : Rng) (cfg : SimConfig) : Nat → Except Fault (Loopback rng)
  | 0 => do
    let sim ← MarketSimulator.new rng cfg
    return { sim }
  | n + 1 => do
    let x ← run rng cfg n
    x.step

/-- The simulator's live order of a symbol under an id. -/
def liveOrder (x : Loopback rng) (sym : SymbolId) (id : OrderId) : Option LiveOrder :=
  x.sim.symbols[sym.toNat]?.bind (·.orders[id]?)

def book (x : Loopback rng) (sym : SymbolId) : OrderBook := (x.feed.down.manager.book sym).val

/-- Nothing was lost or refused, every book holds exactly the simulator's live orders of its
symbol, its levels and locators agree, and it is not crossed. -/
structure Consistent (x : Loopback rng) : Prop where
  forwarded : x.feed.forwarded = x.sim.produced
  dropped : x.feed.dropped = 0
  malformed : x.feed.malformed = 0
  badFrames : x.feed.down.stats.malformed = 0
  rejected : x.feed.down.stats.rejected = 0
  orders : ∀ sym id, (x.book sym).resting id = x.liveOrder sym id
  levels : ∀ sym, (x.book sym).LocatorAgreement
  uncrossed : ∀ sym, ¬(x.book sym).Crossed

/-- Both sides hold the same flat lists. -/
def InStep (cfg : SimConfig) (x : Loopback rng) : Prop :=
  ∃ R, x.sim.Inv cfg R ∧ x.feed.Reconstructs R x.sim.produced.toNat

theorem InStep.consistent {x : Loopback rng} (h : x.InStep cfg) : x.Consistent := by
  obtain ⟨R, hsim, hfeed⟩ := h
  have hquoted (sym : SymbolId) : (R sym).Quoted cfg := by
    cases hs : x.sim.symbols[sym.toNat]? with
    | none => exact hsim.outside sym hs ▸ .nil cfg
    | some s => exact (hsim.symbols sym s hs).quoted
  refine ⟨?_, hfeed.dropped, hfeed.malformed, hfeed.badFrames, hfeed.rejected, ?_, ?_, ?_⟩
  · exact hfeed.forwarded.trans UInt64.ofNat_toNat
  · intro sym id
    rw [book, (hfeed.books sym).resting_eq, liveOrder]
    cases hs : x.sim.symbols[sym.toNat]? with
    | none =>
      rw [hsim.outside sym hs]
      rfl
    | some s => exact ((hsim.symbols sym s hs).models.orders_eq id).symm
  · exact fun sym => (hfeed.books sym).locatorAgreement
  · exact fun sym => (hfeed.books sym).not_crossed (hquoted sym)

theorem step_ensures (hcfg : cfg.Valid) {x : Loopback rng} (h : x.InStep cfg) :
    Ensures Overflows x.step fun x' => x'.InStep cfg ∧
      x'.sim.produced.toNat = min (x.sim.produced.toNat + 1) cfg.numMessages.toNat := by
  obtain ⟨R, hsim, hfeed⟩ := h
  refine (MarketSimulator.next_ensures hcfg hsim).bind ?_
  rintro ⟨sim, out⟩ hnext
  rcases hnext with ⟨hsame, hdone⟩ | ⟨m, sym, R', hout, hseq, hemits, hsim', hproduced⟩
  · obtain ⟨rfl, rfl⟩ := Prod.mk.inj hsame
    refine ⟨⟨R, hsim, hfeed⟩, ?_⟩
    rw [hdone]
    exact (Nat.min_eq_right (Nat.le_succ _)).symm
  · obtain rfl : out = some m := hout
    refine ⟨⟨_, hsim', ?_⟩, ?_⟩
    · rw [hproduced]
      exact hfeed.consume (hseq.trans hsim.nextSeq) hemits
    · rw [← hproduced]
      exact (Nat.min_eq_left hsim'.produced_le).symm

theorem run_ensures (rng : Rng) (hcfg : cfg.Valid) (n : Nat) :
    Ensures Overflows (run rng cfg n) fun x => x.InStep cfg ∧
      x.sim.produced.toNat = min n cfg.numMessages.toNat := by
  induction n with
  | zero =>
    refine (MarketSimulator.new_ensures rng hcfg).bind ?_
    rintro sim ⟨hsim, hproduced⟩
    have hzero : sim.produced.toNat = 0 := congrArg UInt64.toNat hproduced
    refine ⟨⟨_, hsim, ?_⟩, hzero.trans (Nat.zero_min _).symm⟩
    rw [hzero]
    exact ⟨rfl, rfl, rfl, rfl, BookManager.holds_empty, rfl, rfl, .inl ⟨rfl, rfl⟩⟩
  | succ n ih =>
    refine ih.bind fun x ⟨hstep, hproduced⟩ => (step_ensures hcfg hstep).mono ?_
    intro x' hx'
    refine ⟨hx'.1, ?_⟩
    rw [hx'.2, hproduced]
    omega

/-- After any number of messages, whatever the weights (their sums wrap, see `fillMix`), the
intervals and the numbers drawn: unless a computed price leaves the 64-bit range, the run has a
result, no call stops early, and the receiver agrees with the simulator. -/
theorem run_consistent (rng : Rng) (hcfg : cfg.Valid) (n : Nat)
    (hprices : run rng cfg n ≠ .error .priceOverflow) :
    ∃ x, run rng cfg n = .ok x ∧ x.Consistent ∧
      x.sim.produced.toNat = min n cfg.numMessages.toNat := by
  obtain ⟨x, hrun, hstep, hproduced⟩ :=
    (run_ensures rng hcfg n).exists_ok fun e he => he ▸ hprices
  exact ⟨x, hrun, hstep.consistent, hproduced⟩

/-- A linear congruential generator. -/
def congruential : Rng where
  State := UInt64
  seed := id
  draw lo hi h g := (g * 6364136223846793005 + 1442695040888963407,
    ⟨lo + (g >>> 33).toNat % (hi - lo + 1), by
      have hlt : (g >>> 33).toNat % (hi - lo + 1) < hi - lo + 1 := Nat.mod_lt _ (Nat.succ_pos _)
      omega⟩)

def shortConfig : SimConfig where
  numSymbols := 1
  numMessages := 12
  snapshotInterval := 5
  heartbeatInterval := 7

theorem shortConfig_valid : shortConfig.Valid where
  symbols := by decide
  bands := by decide
  tick_pos := by decide
  tick_le := by decide
  step_nonneg := by decide
  qty_pos := by decide
  qty_le := by decide
  total := by decide

theorem emit_short : MarketSimulator.emit congruential shortConfig 13 ≠ .error .priceOverflow := by
  have hok : (MarketSimulator.emit congruential shortConfig 13).isOk = true := by decide +kernel
  intro hfault
  rw [hfault] at hok
  exact Bool.noConfusion hok

/-- One call more than there are messages. -/
theorem run_consistent_short :
    ∃ x, run congruential shortConfig 13 = .ok x ∧ x.Consistent ∧ x.sim.produced.toNat = 12 := by
  have hok : (run congruential shortConfig 13).isOk = true := by decide +kernel
  refine run_consistent congruential shortConfig_valid 13 ?_
  intro hfault
  rw [hfault] at hok
  exact Bool.noConfusion hok

end Loopback

end Mdfh
