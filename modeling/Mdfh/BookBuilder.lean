import Mdfh.BookRefinement
import Mdfh.Parser

/-!
# Book manager and book builder

One book per symbol, driven by normalized events. A `Book` carries the proof that it
refines a flat list of orders, so its calls always have a result.

The release build is modelled: `verify_` is false there and the assertions are empty.

## Main definitions

* `Book` — a well-formed order book, with total operations.
* `BookManager`, `BookBuilder`, `builderHandler`, `bookFingerprint`.
* `Body.op` — the operation a message asks for.
* `BookManager.touch`, `BookStats.tally` — an event's effect on the books and the counters.

## Main results

* `BookBuilder.onMessage_eq` — the callbacks in terms of that effect.
* `BookBuilder.onMessage_of_some` — what the flat lists accept is not rejected.
-/

namespace Mdfh

open Std Library

/-- An order book that calls have reached. -/
abbrev Book := { b : OrderBook // ∃ R, b.Refines R }

namespace Book

def empty (symbol : SymbolId) : Book := ⟨{ symbol }, [], OrderBook.Refines.empty symbol⟩

theorem apply_isSome (b : Book) (op : OrderBook.Op) : (b.val.apply op).isSome := by
  obtain ⟨R, hR⟩ := b.property
  obtain ⟨b', hb', -⟩ := hR.apply op
  rw [hb']
  rfl

/-- A call with the value it returns; it never runs into undefined behaviour. -/
def apply (b : Book) (op : OrderBook.Op) : Book × Bool :=
  let r := (b.val.apply op).get (b.apply_isSome op)
  (⟨r.1, by
    obtain ⟨R, hR⟩ := b.property
    obtain ⟨b', hb', hR'⟩ := hR.apply op
    have hr : r.1 = b' := by simp [r, hb']
    exact ⟨_, hr ▸ hR'⟩⟩, r.2)

theorem apply_val (b : Book) (op : OrderBook.Op) :
    b.val.apply op = some ((b.apply op).1.val, (b.apply op).2) := (Option.some_get _).symm

end Book

structure BookManager where
  books : ExtTreeMap SymbolId Book compare := ∅

namespace BookManager

/-- The book of a symbol, created empty at first use. -/
def book (m : BookManager) (symbol : SymbolId) : Book := m.books.getD symbol (Book.empty symbol)

/-- Write back the book that `book` returned a reference to. -/
def setBook (m : BookManager) (symbol : SymbolId) (b : Book) : BookManager :=
  { books := m.books.insert symbol b }

def find (m : BookManager) (symbol : SymbolId) : Option Book := m.books[symbol]?

def symbolCount (m : BookManager) : Nat := m.books.size

end BookManager

structure BookStats where
  adds : UInt64 := 0
  cancels : UInt64 := 0
  modifies : UInt64 := 0
  trades : UInt64 := 0
  snapshots : UInt64 := 0
  heartbeats : UInt64 := 0
  malformed : UInt64 := 0
  rejected : UInt64 := 0
  deriving DecidableEq, Repr

structure BookBuilder where
  manager : BookManager := {}
  stats : BookStats := {}

namespace BookBuilder

/-- The body shared by the four callbacks that change a book. -/
def mutate (symbol : SymbolId) (op : OrderBook.Op) (b : BookBuilder) : BookBuilder :=
  let (bk, ok) := (b.manager.book symbol).apply op
  { manager := b.manager.setBook symbol bk
    stats := if ok then b.stats else { b.stats with rejected := b.stats.rejected + 1 } }

def onAddOrder (m : AddOrder) (b : BookBuilder) : BookBuilder :=
  mutate m.symbol (.add m.orderId m.side m.price m.quantity)
    { b with stats.adds := b.stats.adds + 1 }

def onCancelOrder (m : CancelOrder) (b : BookBuilder) : BookBuilder :=
  mutate m.symbol (.cancel m.orderId) { b with stats.cancels := b.stats.cancels + 1 }

def onModifyOrder (m : ModifyOrder) (b : BookBuilder) : BookBuilder :=
  mutate m.symbol (.modify m.orderId m.newPrice m.newQuantity)
    { b with stats.modifies := b.stats.modifies + 1 }

/-- A trade consumes liquidity from the resting order. -/
def onTrade (m : Trade) (b : BookBuilder) : BookBuilder :=
  mutate m.symbol (.execute m.restingOrderId m.quantity)
    { b with stats.trades := b.stats.trades + 1 }

/-- Snapshots are counted but not applied. -/
def onSnapshot (b : BookBuilder) : BookBuilder :=
  { b with stats.snapshots := b.stats.snapshots + 1 }

def onHeartbeat (b : BookBuilder) : BookBuilder :=
  { b with stats.heartbeats := b.stats.heartbeats + 1 }

def onMalformed (b : BookBuilder) : BookBuilder :=
  { b with stats.malformed := b.stats.malformed + 1 }

end BookBuilder

def builderHandler : HandlerLike BookBuilder where
  onAddOrder _ := BookBuilder.onAddOrder
  onCancelOrder _ := BookBuilder.onCancelOrder
  onModifyOrder _ := BookBuilder.onModifyOrder
  onTrade _ := BookBuilder.onTrade
  onSnapshot _ _ := BookBuilder.onSnapshot
  onHeartbeat _ := BookBuilder.onHeartbeat
  onMalformed _ := BookBuilder.onMalformed

/-! ## Messages as operations on flat lists -/

/-- The operation on the book of a symbol, for the four messages that have one. -/
def Body.op : Body → Option (SymbolId × OrderBook.Op)
  | .addOrder m => some (m.symbol, .add m.orderId m.side m.price m.quantity)
  | .cancelOrder m => some (m.symbol, .cancel m.orderId)
  | .modifyOrder m => some (m.symbol, .modify m.orderId m.newPrice m.newQuantity)
  | .trade m => some (m.symbol, .execute m.restingOrderId m.quantity)
  | .bookSnapshot _ | .heartbeat => none

namespace BookManager

/-- The books hold the orders of one flat list for each symbol. -/
def Holds (m : BookManager) (R : SymbolId → Reference) : Prop :=
  ∀ symbol, (m.book symbol).val.Refines (R symbol)

theorem holds_empty : Holds {} fun _ => [] := by
  intro symbol
  have hempty : book {} symbol = Book.empty symbol := ExtTreeMap.getD_empty
  rw [hempty]
  exact OrderBook.Refines.empty symbol

theorem book_setBook (m : BookManager) (symbol symbol' : SymbolId) (b : Book) :
    (m.setBook symbol b).book symbol' = if symbol = symbol' then b else m.book symbol' := by
  rw [book, setBook, ExtTreeMap.getD_insert]
  simp only [Std.compare_eq_iff_eq]
  rfl

/-- A call that the flat list accepts succeeds, and the book then holds the new list. -/
theorem Holds.apply {m : BookManager} {R : SymbolId → Reference} (h : m.Holds R)
    {symbol : SymbolId} {op : OrderBook.Op} {R' : Reference}
    (hop : (R symbol).apply op = (R', true)) :
    ((m.book symbol).apply op).2 = true ∧
      (m.setBook symbol ((m.book symbol).apply op).1).Holds (Function.update R symbol R') := by
  obtain ⟨b', hb', hrefines⟩ := (h symbol).apply op
  rw [hop, Book.apply_val] at hb'
  obtain ⟨rfl, hret⟩ := Prod.mk.inj (Option.some.inj hb')
  refine ⟨hret, fun symbol' => ?_⟩
  rw [book_setBook]
  by_cases hsymbol : symbol = symbol'
  · subst hsymbol
    rw [hop] at hrefines
    rw [if_pos rfl, Function.update_self]
    exact hrefines
  · rw [if_neg hsymbol, Function.update_of_ne (Ne.symm hsymbol)]
    exact h symbol'

end BookManager

/-! ## The effect of an event -/

/-- An event on the book of its symbol, and whether it is accepted. -/
def BookManager.touch (m : BookManager) (body : Body) : BookManager × Bool :=
  match body.op with
  | some (symbol, op) =>
    let r := (m.book symbol).apply op
    (m.setBook symbol r.1, r.2)
  | none => (m, true)

namespace BookStats

/-- The counters after an event. -/
def tally (st : BookStats) (body : Body) (ok : Bool) : BookStats :=
  let st := match body with
    | .addOrder _ => { st with adds := st.adds + 1 }
    | .cancelOrder _ => { st with cancels := st.cancels + 1 }
    | .modifyOrder _ => { st with modifies := st.modifies + 1 }
    | .trade _ => { st with trades := st.trades + 1 }
    | .bookSnapshot _ => { st with snapshots := st.snapshots + 1 }
    | .heartbeat => { st with heartbeats := st.heartbeats + 1 }
  if ok then st else { st with rejected := st.rejected + 1 }

variable (st : BookStats) (body : Body) (ok : Bool)

@[simp] theorem tally_malformed : (st.tally body ok).malformed = st.malformed := by
  cases ok <;> cases body <;> rfl

theorem tally_rejected :
    (st.tally body ok).rejected = if ok then st.rejected else st.rejected + 1 := by
  cases ok <;> cases body <;> rfl

end BookStats

namespace BookBuilder

/-- An event without its header, which the builder never reads. -/
def step (b : BookBuilder) (body : Body) : BookBuilder :=
  { manager := (b.manager.touch body).1
    stats := b.stats.tally body (b.manager.touch body).2 }

theorem onMessage_eq (hdr : MessageHeader) (body : Body) (b : BookBuilder) :
    builderHandler.onMessage hdr body b = b.step body := by
  cases body <;> rfl

variable {b : BookBuilder} {R : SymbolId → Reference}

/-- Messages without an operation leave the books alone. -/
theorem onMessage_of_none (hdr : MessageHeader) {body : Body} (hbody : body.op = none)
    (b : BookBuilder) :
    let b' := builderHandler.onMessage hdr body b
    b'.manager = b.manager ∧ b'.stats.rejected = b.stats.rejected ∧
      b'.stats.malformed = b.stats.malformed := by
  have htouch : b.manager.touch body = (b.manager, true) := by
    rw [BookManager.touch, hbody]
  rw [onMessage_eq, step, htouch]
  exact ⟨rfl, BookStats.tally_rejected .., BookStats.tally_malformed ..⟩

/-- A message whose operation the flat list accepts is not rejected. -/
theorem onMessage_of_some (hdr : MessageHeader) {body : Body} {symbol : SymbolId}
    {op : OrderBook.Op} {R' : Reference} (hbody : body.op = some (symbol, op))
    (h : b.manager.Holds R) (hop : (R symbol).apply op = (R', true)) :
    let b' := builderHandler.onMessage hdr body b
    b'.manager.Holds (Function.update R symbol R') ∧ b'.stats.rejected = b.stats.rejected ∧
      b'.stats.malformed = b.stats.malformed := by
  obtain ⟨hret, hholds⟩ := h.apply hop
  have htouch : b.manager.touch body =
      (b.manager.setBook symbol ((b.manager.book symbol).apply op).1, true) := by
    simp only [BookManager.touch, hbody, hret]
  rw [onMessage_eq, step, htouch]
  exact ⟨hholds, BookStats.tally_rejected .., BookStats.tally_malformed ..⟩

end BookBuilder

/-! ## Fingerprint -/

/-- One round of the FNV-1a mix. -/
def mix (h v : UInt64) : UInt64 := (h ^^^ v) * 1099511628211

def mixLevel (h : UInt64) : Option LevelView → UInt64
  | none => h
  | some lv => mix (mix (mix h lv.price.toUInt64) lv.quantity.toUInt64) lv.orderCount.toUInt64

/-- The contribution of one symbol. -/
def symbolFingerprint (sym : SymbolId) (bk : OrderBook) : UInt64 :=
  let h := mix 1469598103934665603 sym.toUInt64
  let h := mix h (UInt64.ofNat bk.bidLevels)
  let h := mix h (UInt64.ofNat bk.askLevels)
  let h := mix h (UInt64.ofNat bk.orderCount)
  mixLevel (mixLevel h bk.bestBid) bk.bestAsk

/-- The source visits the symbols in an unspecified order and adds up their contributions. -/
def bookFingerprint (m : BookManager) : UInt64 :=
  m.books.foldl (fun acc sym bk => acc + symbolFingerprint sym bk.val) 0

end Mdfh
