import Mdfh.BookQueries
import Mdfh.ExchangeFeed
import Mdfh.Library.Transition
import Mdfh.Reassembly

/-!
# The verifying builder

In a debug build the builder checks the book of every event behind it, and a check that
fails ends the process. The check of one book stands for that of all: a process that is
still there has been through states without a crossed book only. The release build is the
builder of the other modules.

## Main definitions

* `BookManager.checkAllInvariants` — the self-check of all books.
* `DebugBuilder`, `debugHandler` — the callbacks with their assertions.

## Main results

* `DebugBuilder.deliverAll_eq` — a run of callbacks as a checked run.
* `DebugBuilder.debug_feed_iff` — when a receiver in a debug build is still there.
* `DebugBuilder.debug_feed_exchange` — the exchange's stream never ends it.
-/

namespace Mdfh

open Std Library

/-! ## The self-check of all books -/

theorem Book.checkInvariants_iff (b : Book) :
    b.val.checkInvariants = some true ↔ b.val.crossing = false := by
  obtain ⟨R, hR⟩ := b.property
  rw [hR.locatorAgreement.checkInvariants_eq]
  simp

theorem OrderBook.crossed_of_crossing {b : OrderBook} (h : b.crossing = true) : b.Crossed := by
  unfold crossing at h
  split at h
  · next bid ask hbid hask =>
    refine ⟨PriceLevel.view bid.2, PriceLevel.view ask.2, ?_, ?_, of_decide_eq_true h⟩
    · rw [bestBid, hbid, Option.map_some]
    · rw [bestAsk, hask, Option.map_some]
  · cases h

theorem forall_of_allM {α : Type} {f : α → Option Bool} {as : List α}
    (h : as.allM f = some true) : ∀ a ∈ as, f a = some true := by
  induction as with
  | nil => simp
  | cons a as ih =>
    rw [List.allM] at h
    obtain ⟨ok, hok, hrest⟩ := Option.bind_eq_some_iff.mp h
    cases ok with
    | false => cases hrest
    | true => exact List.forall_mem_cons.mpr ⟨hok, ih hrest⟩

namespace BookManager

variable {m : BookManager}

/-- The source visits the books in an unspecified order, up to the first that fails. -/
def checkAllInvariants (m : BookManager) : Option Bool :=
  m.books.toList.allM fun e => e.2.val.checkInvariants

/-- No book is crossed. -/
def Sound (m : BookManager) : Prop := ∀ sym, (m.book sym).val.crossing = false

theorem sound_empty : Sound {} := by
  intro sym
  have hempty : book {} sym = Book.empty sym := ExtTreeMap.getD_empty
  rw [hempty]
  rfl

theorem checkAllInvariants_iff : m.checkAllInvariants = some true ↔ m.Sound := by
  have hmem (sym : SymbolId) (b : Book) : (sym, b) ∈ m.books.toList ↔ m.books[sym]? = some b :=
    ExtTreeMap.mem_toList_iff_getElem?_eq_some
  constructor
  · intro h sym
    rw [book, ExtTreeMap.getD_eq_getD_getElem?]
    cases hb : m.books[sym]? with
    | none => rfl
    | some b =>
      have hcheck := forall_of_allM h (sym, b) ((hmem sym b).mpr hb)
      exact b.checkInvariants_iff.mp hcheck
  · intro h
    refine OrderBook.allM_of_forall ?_
    intro e he
    have hb := h e.1
    rw [book, ExtTreeMap.getD_eq_getD_getElem?, (hmem e.1 e.2).mp he] at hb
    exact e.2.checkInvariants_iff.mpr hb

theorem sound_received {rng : Rng} {cfg : SimConfig} (hcfg : cfg.Valid) {n : Nat}
    {sim : MarketSimulator rng} {ms : List GeneratedMessage}
    (h : MarketSimulator.emit rng cfg n = .ok (sim, ms)) :
    (FeedHandler.received ms).down.manager.Sound := by
  intro sym
  have huncrossed := (MarketSimulator.consistent_received hcfg h []).uncrossed sym
  refine Bool.eq_false_iff.mpr fun hcrossing => huncrossed ?_
  exact OrderBook.crossed_of_crossing hcrossing

/-- An event changes no book but that of its symbol. -/
theorem touch_book (m : BookManager) (body : Body) {sym : SymbolId}
    (h : ∀ op, body.op ≠ some (sym, op)) : (m.touch body).1.book sym = m.book sym := by
  unfold touch
  split
  · next symbol op hbody =>
    have hne : symbol ≠ sym := by
      intro heq
      exact h op (heq ▸ hbody)
    rw [book_setBook, if_neg hne]
  · rfl

end BookManager

/-! ## The builder of a debug build -/

structure DebugBuilder extends BookBuilder where
  verify : Bool := true

namespace DebugBuilder

/-- The assertion on the book of an event; if it fails, the process ends. -/
def assertBook (symbol : SymbolId) (b : DebugBuilder) : Option DebugBuilder :=
  if b.verify then
    if (b.manager.book symbol).val.checkInvariants = some true then some b else none
  else some b

def onAddOrder (m : AddOrder) (b : DebugBuilder) : Option DebugBuilder :=
  assertBook m.symbol { b with toBookBuilder := b.toBookBuilder.onAddOrder m }

def onCancelOrder (m : CancelOrder) (b : DebugBuilder) : Option DebugBuilder :=
  assertBook m.symbol { b with toBookBuilder := b.toBookBuilder.onCancelOrder m }

def onModifyOrder (m : ModifyOrder) (b : DebugBuilder) : Option DebugBuilder :=
  assertBook m.symbol { b with toBookBuilder := b.toBookBuilder.onModifyOrder m }

def onTrade (m : Trade) (b : DebugBuilder) : Option DebugBuilder :=
  assertBook m.symbol { b with toBookBuilder := b.toBookBuilder.onTrade m }

end DebugBuilder

open DebugBuilder in
/-- The state is `none` once an assertion has failed. -/
def debugHandler : HandlerLike (Option DebugBuilder) where
  onAddOrder _ m s := s.bind (onAddOrder m)
  onCancelOrder _ m s := s.bind (onCancelOrder m)
  onModifyOrder _ m s := s.bind (onModifyOrder m)
  onTrade _ m s := s.bind (onTrade m)
  onSnapshot _ _ s := s.map fun b => { b with toBookBuilder := b.toBookBuilder.onSnapshot }
  onHeartbeat _ s := s.map fun b => { b with toBookBuilder := b.toBookBuilder.onHeartbeat }
  onMalformed _ s := s.map fun b => { b with toBookBuilder := b.toBookBuilder.onMalformed }

/-- The symbol of the book that a callback can change. -/
def Callback.touched : Callback → Option SymbolId
  | .message _ body => body.op.map (·.1)
  | .malformed _ => none

namespace DebugBuilder

/-- Without `verify` a debug build does what the release build does. -/
theorem deliver_of_verify_eq_false {b : DebugBuilder} (h : b.verify = false) (c : Callback) :
    debugHandler.deliver c (some b) =
      some { b with toBookBuilder := builderHandler.deliver c b.toBookBuilder } := by
  have hassert (symbol : SymbolId) (b' : BookBuilder) :
      assertBook symbol { b with toBookBuilder := b' } = some { b with toBookBuilder := b' } :=
    if_neg (by simp [h])
  cases c with
  | malformed off => rfl
  | message hdr body =>
    cases body with
    | bookSnapshot m => rfl
    | heartbeat => rfl
    | addOrder m => exact hassert m.symbol _
    | cancelOrder m => exact hassert m.symbol _
    | modifyOrder m => exact hassert m.symbol _
    | trade m => exact hassert m.symbol _

/-- A verifying builder with these books and counters. -/
def verifying (b : BookBuilder) : DebugBuilder := { b with verify := true }

/-- The check behind a callback. -/
def passes (b : BookBuilder) (c : Callback) : Bool :=
  c.touched.all fun sym => (b.manager.book sym).val.checkInvariants = some true

theorem passes_of_sound {b : BookBuilder} (h : b.manager.Sound) (c : Callback) :
    passes b c = true := by
  cases hc : c.touched with
  | none => simp [passes, hc]
  | some sym =>
    simp only [passes, hc, Option.all_some, decide_eq_true_eq]
    exact (Book.checkInvariants_iff _).mpr (h sym)

theorem assertBook_verifying (symbol : SymbolId) (b : BookBuilder) :
    assertBook symbol (verifying b) =
      if (b.manager.book symbol).val.checkInvariants = some true then some (verifying b) else none :=
  rfl

theorem deliver_verifying (c : Callback) (b : BookBuilder) :
    debugHandler.deliver c (some (verifying b)) =
      if passes (builderHandler.deliver c b) c then some (verifying (builderHandler.deliver c b))
      else none := by
  -- A callback with a book hands its symbol to `assertBook`; the others pass.
  cases c with
  | malformed off => rfl
  | message hdr body =>
    cases body with
    | bookSnapshot m => rfl
    | heartbeat => rfl
    | addOrder m =>
      simp only [passes, Callback.touched, Body.op, Option.map_some, Option.all_some, decide_eq_true_eq]
      exact assertBook_verifying m.symbol _
    | cancelOrder m =>
      simp only [passes, Callback.touched, Body.op, Option.map_some, Option.all_some, decide_eq_true_eq]
      exact assertBook_verifying m.symbol _
    | modifyOrder m =>
      simp only [passes, Callback.touched, Body.op, Option.map_some, Option.all_some, decide_eq_true_eq]
      exact assertBook_verifying m.symbol _
    | trade m =>
      simp only [passes, Callback.touched, Body.op, Option.map_some, Option.all_some, decide_eq_true_eq]
      exact assertBook_verifying m.symbol _

theorem deliverAll_none (cs : List Callback) : debugHandler.deliverAll none cs = none := by
  induction cs with
  | nil => rfl
  | cons c cs ih =>
    have hnone : debugHandler.deliver c none = none := by
      cases c with
      | malformed off => rfl
      | message hdr body => cases body <;> rfl
    rw [HandlerLike.deliverAll_cons, hnone, ih]

/-- A run of callbacks with their assertions, against the builder without. -/
theorem deliverAll_eq (cs : List Callback) (b : BookBuilder) :
    debugHandler.deliverAll (some (verifying b)) cs =
      (runChecked (fun b c => builderHandler.deliver c b) passes b cs).map verifying := by
  induction cs generalizing b with
  | nil => rfl
  | cons c cs ih =>
    rw [HandlerLike.deliverAll_cons, deliver_verifying, runChecked]
    split_ifs
    · exact ih _
    · exact deliverAll_none cs

/-- What a callback leaves uncrossed besides the book it checks was so before. -/
theorem passes_iff {b : BookBuilder} (h : b.manager.Sound) (c : Callback) :
    passes (builderHandler.deliver c b) c = true ↔ (builderHandler.deliver c b).manager.Sound := by
  cases c with
  | malformed off => exact iff_of_true rfl h
  | message hdr body =>
    have hmanager : (builderHandler.deliver (.message hdr body) b).manager =
        (b.manager.touch body).1 := congrArg (·.manager) (BookBuilder.onMessage_eq hdr body b)
    simp only [passes, Callback.touched, hmanager]
    cases hbody : body.op with
    | none =>
      refine iff_of_true rfl fun sym => ?_
      rw [b.manager.touch_book body (by simp [hbody])]
      exact h sym
    | some target =>
      obtain ⟨symbol, op⟩ := target
      simp only [Option.map_some, Option.all_some, decide_eq_true_eq, Book.checkInvariants_iff]
      refine ⟨fun hbook sym => ?_, fun hall => hall symbol⟩
      by_cases heq : symbol = sym
      · exact heq ▸ hbook
      · rw [b.manager.touch_book body (by simp [hbody, heq])]
        exact h sym

/-- A verifying builder is still there after a run exactly if the builder without assertions
has been through uncrossed books only. -/
theorem deliverAll_eq_some_iff (cs : List Callback) (d : DebugBuilder) :
    debugHandler.deliverAll (some (verifying {})) cs = some d ↔
      d = verifying (builderHandler.deliverAll {} cs) ∧ ∀ k ≤ cs.length,
        (builderHandler.deliverAll {} (cs.take k)).manager.checkAllInvariants = some true := by
  have hchecked (t : BookBuilder) :
      runChecked (fun b c => builderHandler.deliver c b) passes {} cs = some t ↔ _ :=
    runChecked_eq_some_iff (P := fun b : BookBuilder => b.manager.Sound)
      (fun b c hb => passes_iff hb c) BookManager.sound_empty
  simp only [deliverAll_eq, Option.map_eq_some_iff, BookManager.checkAllInvariants_iff]
  constructor
  · rintro ⟨t, ht, rfl⟩
    obtain ⟨rfl, hall⟩ := (hchecked t).mp ht
    exact ⟨rfl, hall⟩
  · rintro ⟨rfl, hall⟩
    exact ⟨_, (hchecked _).mpr ⟨rfl, hall⟩, rfl⟩

end DebugBuilder

/-! ## The receiver of a debug build -/

namespace FeedHandler

theorem foldl_receive_mapDown {δ δ' : Type} {D : HandlerLike δ} {D' : HandlerLike δ'} {f : δ → δ'}
    (hf : D.Maps D' f) (ms : List Message) (fh : FeedHandler δ) :
    (ms.foldl (receive D) fh).mapDown f = ms.foldl (receive D') (fh.mapDown f) := by
  induction ms generalizing fh with
  | nil => rfl
  | cons m ms ih =>
    have hone := deliver_mapDown hf m.callback fh
    rw [deliver_callback, deliver_callback] at hone
    rw [List.foldl_cons, ih, hone, List.foldl_cons]

theorem HasRead.feedAll {δ : Type} {D : HandlerLike δ} {ms : List Message} {p : List UInt8}
    {fh₀ fh : FeedHandler δ} (h : HasRead D ms fh₀ p fh) {chunks : List (List UInt8)}
    (hpart : p ++ chunks.flatten <+: ms.flatMap Message.bytes) :
    HasRead D ms fh₀ (p ++ chunks.flatten) (feedAll D chunks fh) := by
  induction chunks generalizing p fh with
  | nil =>
    rw [List.flatten_nil, List.append_nil]
    exact h
  | cons chunk chunks ih =>
    rw [List.flatten_cons, ← List.append_assoc] at hpart ⊢
    exact ih (h.consume ((List.prefix_append _ _).trans hpart)) hpart

end FeedHandler

namespace DebugBuilder

open FeedHandler

/-- What a sink is told is what the recorder logs. -/
theorem deliverAll_maps {σ : Type} (H : HandlerLike σ) (s : σ) : recorder.Maps H (H.deliverAll s) := by
  have hconcat (log : List Callback) (c : Callback) :
      H.deliverAll s (recorder.deliver c log) = H.deliver c (H.deliverAll s log) := by
    rw [recorder_deliver, HandlerLike.deliverAll, List.foldl_concat]
    rfl
  exact ⟨fun hdr body log => hconcat log (.message hdr body),
    fun off log => hconcat log (.malformed off)⟩

/-- Any bytes in any chunks: the receiver of a debug build is still there exactly if every
book of the release build passes its self-check behind each callback made so far, and then
both have the same books and counters. -/
theorem debug_feed_iff (chunks : List (List UInt8)) (d : DebugBuilder) :
    let log := (feedAll recorder chunks { down := [] }).down
    (feedAll debugHandler chunks { down := some {} }).down = some d ↔
      d = { (feedAll builderHandler chunks { down := {} }).down with verify := true } ∧
        ∀ k ≤ log.length,
          (builderHandler.deliverAll {} (log.take k)).manager.checkAllInvariants = some true := by
  intro log
  have hdebug : (feedAll debugHandler chunks { down := some {} }).down =
      debugHandler.deliverAll (some (verifying {})) log :=
    (congrArg (·.down) (feedAll_mapDown (deliverAll_maps debugHandler (some {})) chunks { down := [] })).symm
  have hrelease : (feedAll builderHandler chunks { down := {} }).down =
      builderHandler.deliverAll {} log :=
    (congrArg (·.down) (feedAll_mapDown (deliverAll_maps builderHandler {}) chunks { down := [] })).symm
  rw [hdebug, hrelease]
  exact deliverAll_eq_some_iff log d

/-- One message that leaves no book crossed. -/
theorem receive_verifying {fh : FeedHandler BookBuilder} {m : Message}
    (h : (receive builderHandler fh m).down.manager.Sound) :
    receive debugHandler (fh.mapDown fun b => some (verifying b)) m =
      (receive builderHandler fh m).mapDown fun b => some (verifying b) := by
  simp only [receive, forwardIf_eq, mapDown] at h ⊢
  split_ifs with hforwards
  · rw [if_pos hforwards] at h
    have hpasses : passes (builderHandler.deliver m.callback fh.down) m.callback = true :=
      passes_of_sound h m.callback
    have hdeliver := deliver_verifying m.callback fh.down
    rw [if_pos hpasses] at hdeliver
    simp only [HandlerLike.deliver, Message.callback] at hdeliver
    rw [hdeliver]
  · rfl

variable {rng : Rng} {cfg : SimConfig}

/-- Whatever part of a valid exchange's stream arrives, in any chunks, no assertion of the
receiver fails. -/
theorem debug_feed_exchange (hcfg : cfg.Valid) {n : Nat} (hn : n ≤ cfg.numMessages.toNat)
    {sim : MarketSimulator rng} {ms : List GeneratedMessage}
    (hemit : MarketSimulator.emit rng cfg n = .ok (sim, ms)) (chunks : List (List UInt8))
    (hpart : chunks.flatten <+: (ms.map GeneratedMessage.dispatch).flatMap Message.bytes) :
    (feedAll debugHandler chunks { down := some {} }).down =
      some { (feedAll builderHandler chunks { down := {} }).down with verify := true } := by
  obtain ⟨-, hlen⟩ := MarketSimulator.length_of_emit hcfg hn hemit
  -- The log is that of the first whole messages, so both builders are behind the same one.
  have hstart : HasRead recorder (ms.map GeneratedMessage.dispatch) { down := [] } []
      { down := [] } := hasRead_nil _ rfl
  obtain ⟨k, tail, -, hcut, hlog⟩ := hstart.feedAll hpart
  have hk : k ≤ n := by simpa [hlen] using hcut.le
  have hreceived (j : Nat) (hj : j ≤ n) :
      ((ms.take j).map GeneratedMessage.dispatch).foldl (receive debugHandler)
          { down := some (verifying {}) } =
        (received (ms.take j)).mapDown fun b => some (verifying b) := by
    induction j with
    | zero => rfl
    | succ j ih =>
      have hlt : j < ms.length := hlen ▸ hj
      obtain ⟨simj, hsimj⟩ := MarketSimulator.emit_take hemit hlen hj
      have hsound := BookManager.sound_received hcfg hsimj
      rw [List.take_succ_eq_append_getElem hlt, received_concat] at hsound ⊢
      rw [List.map_append, List.foldl_append, ih (Nat.le_of_succ_le hj)]
      exact receive_verifying hsound
  have hstate {δ : Type} (H : HandlerLike δ) (s : δ) :
      (feedAll H chunks { down := s }).down =
        (((ms.take k).map GeneratedMessage.dispatch).foldl (receive H) { down := s }).down := by
    have hfeed := feedAll_mapDown (deliverAll_maps H s) chunks { down := [] }
    have hfold := foldl_receive_mapDown (deliverAll_maps H s)
      ((ms.take k).map GeneratedMessage.dispatch) { down := [] }
    rw [hlog, ← List.map_take] at hfeed
    exact (congrArg (·.down) hfeed).symm.trans (congrArg (·.down) hfold)
  rw [hstate, hstate builderHandler]
  exact congrArg (·.down) (hreceived k hk)

/-- Five messages, cut inside the first and inside a later one. -/
theorem debug_feed_exchange_short :
    ∃ sim ms, MarketSimulator.emit Loopback.congruential Loopback.shortConfig 5 = .ok (sim, ms) ∧
      let bytes := (ms.map GeneratedMessage.dispatch).flatMap Message.bytes
      (feedAll debugHandler [bytes.take 7, (bytes.drop 7).take 80] { down := some {} }).down =
        some { (feedAll builderHandler [bytes.take 7, (bytes.drop 7).take 80] { down := {} }).down
          with verify := true } := by
  cases hemit : MarketSimulator.emit Loopback.congruential Loopback.shortConfig 5 with
  | error f =>
    have hok : (MarketSimulator.emit Loopback.congruential Loopback.shortConfig 5).isOk = true := by
      decide +kernel
    rw [hemit] at hok
    cases hok
  | ok r =>
    obtain ⟨sim, ms⟩ := r
    refine ⟨sim, ms, rfl, debug_feed_exchange Loopback.shortConfig_valid (by decide) hemit _ ?_⟩
    simp only [List.flatten_cons, List.flatten_nil, List.append_nil, ← List.take_add]
    exact List.take_prefix _ _

end DebugBuilder

end Mdfh
