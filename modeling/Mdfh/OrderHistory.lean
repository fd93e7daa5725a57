import Mdfh.BookProjection
import Mdfh.ExchangeFeed

/-!
# The history of an order

The messages that name an order are its history. Two receivers whose messages agree on the
history of an order have the same order in their books, whatever else they have got.

## Main definitions

* `Message.names` — the messages about an order.
* `opsOn` — the operations that messages ask for on the book of a symbol.

## Main results

* `BookBuilder.holds_build` — the lists behind the books that any messages build.
* `lookup_of_history` — an order depends on its history alone.
-/

namespace Mdfh

open Std Library Library.Keyed

/-- The message asks for an operation on the order with this id. -/
def Message.names (sym : SymbolId) (id : OrderId) (m : Message) : Bool :=
  m.body.op.any fun r => r.1 = sym ∧ r.2.orderId = some id

/-- The operations on the book of a symbol, in order. -/
def opsOn (sym : SymbolId) (ms : List Message) : List OrderBook.Op :=
  ms.filterMap fun m => m.body.op.bind fun r => if r.1 = sym then some r.2 else none

/-- No message clears a book. -/
theorem Body.exists_orderId {body : Body} {sym : SymbolId} {op : OrderBook.Op}
    (h : body.op = some (sym, op)) : ∃ id, op.orderId = some id := by
  cases body with
  | addOrder | cancelOrder | modifyOrder | trade =>
    obtain ⟨-, rfl⟩ := Prod.mk.inj (Option.some.inj h)
    exact ⟨_, rfl⟩
  | bookSnapshot | heartbeat => cases h

section
variable (sym : SymbolId) (id : OrderId) (ms ms' : List Message)

theorem opsOn_append : opsOn sym (ms ++ ms') = opsOn sym ms ++ opsOn sym ms' := List.filterMap_append

theorem filter_opsOn :
    (opsOn sym ms).filter (·.concerns (· = id)) = opsOn sym (ms.filter (·.names sym id)) := by
  rw [opsOn, opsOn, List.filter_filterMap, List.filterMap_filter]
  refine List.filterMap_congr fun m _ => ?_
  cases hop : m.body.op with
  | none => simp [Message.names, hop]
  | some r =>
    obtain ⟨sym', op⟩ := r
    obtain ⟨id', hid⟩ := Body.exists_orderId hop
    by_cases hsym : sym' = sym <;> by_cases hid' : id' = id <;>
      simp [Message.names, hop, hsym, hid', OrderBook.Op.concerns, hid]

end

theorem Reference.run_append (R : Reference) (ops ops' : List OrderBook.Op) :
    (R.run (ops ++ ops')).1 = (Reference.run (R.run ops).1 ops').1 := by
  induction ops generalizing R with
  | nil => rfl
  | cons op ops ih => exact ih (R.apply op).1

/-- An order depends on its history alone. -/
theorem lookup_of_history {sym : SymbolId} {id : OrderId} {ms ms' : List Message}
    (h : ms.filter (·.names sym id) = ms'.filter (·.names sym id)) :
    lookup Entry.id id (Reference.run [] (opsOn sym ms)).1 =
      lookup Entry.id id (Reference.run [] (opsOn sym ms')).1 := by
  have hpart (ms : List Message) : lookup Entry.id id (Reference.run [] (opsOn sym ms)).1 =
      lookup Entry.id id (Reference.run [] (opsOn sym (ms.filter (·.names sym id)))).1 := by
    have hrun := Reference.run_restrict (· = id) (opsOn sym ms) []
    have hself : decide (id = id) = true := decide_eq_true rfl
    rw [filter_opsOn] at hrun
    rw [show restrict Entry.id (· = id) ([] : Reference) = [] from rfl] at hrun
    rw [hrun]
    exact (lookup_restrict (S := (· = id)) hself).symm
  rw [hpart ms, hpart ms', h]

/-! ## Books -/

theorem BookManager.Holds.touch {m : BookManager} {R : SymbolId → Reference} (h : m.Holds R)
    (body : Body) : (m.touch body).1.Holds fun sym => (Reference.run (R sym)
      (opsOn sym [⟨0, 0, body⟩])).1 := by
  intro sym
  cases hop : body.op with
  | none => simpa [BookManager.touch, opsOn, hop, Reference.run] using h sym
  | some r =>
    obtain ⟨sym', op⟩ := r
    obtain ⟨b', hb', hrefines⟩ := (h sym').apply op
    rw [Book.apply_val] at hb'
    obtain ⟨rfl, -⟩ := Prod.mk.inj (Option.some.inj hb')
    simp only [BookManager.touch, hop, BookManager.book_setBook]
    by_cases hsym : sym' = sym
    · subst hsym
      simpa [opsOn, hop, Reference.run] using hrefines
    · simpa [opsOn, hop, Reference.run, hsym] using h sym

/-- A run of messages into a builder. -/
def BookBuilder.buildFrom (ms : List Message) (b : BookBuilder) : BookBuilder :=
  ms.foldl (fun b m => builderHandler.onMessage m.header m.body b) b

theorem BookBuilder.holds_buildFrom {b : BookBuilder} {R : SymbolId → Reference}
    (h : b.manager.Holds R) (ms : List Message) :
    (buildFrom ms b).manager.Holds fun sym => (Reference.run (R sym) (opsOn sym ms)).1 := by
  induction ms generalizing b R with
  | nil => exact h
  | cons m ms ih =>
    have hstep : (builderHandler.onMessage m.header m.body b).manager.Holds fun sym =>
        (Reference.run (R sym) (opsOn sym [m])).1 := by
      rw [onMessage_eq]
      exact h.touch m.body
    have hrest := ih hstep
    intro sym
    have hsplit : opsOn sym (m :: ms) = opsOn sym [m] ++ opsOn sym ms := opsOn_append sym [m] ms
    simp only [hsplit, Reference.run_append]
    exact hrest sym

/-- The lists behind the books that any messages build, whether or not they are accepted. -/
theorem BookBuilder.holds_build (ms : List Message) :
    (buildFrom ms {}).manager.Holds fun sym => (Reference.run [] (opsOn sym ms)).1 :=
  holds_buildFrom BookManager.holds_empty ms

theorem Leads.eq_run {ms : List GeneratedMessage} {R : SymbolId → Reference} (h : Leads ms R)
    (sym : SymbolId) :
    R sym = (Reference.run [] (opsOn sym (ms.map GeneratedMessage.dispatch))).1 := by
  induction h with
  | nil => rfl
  | @snoc ms R sym' m R' _ _ hemits ih =>
    rw [List.map_append, opsOn_append, Reference.run_append, ← ih]
    unfold Emits at hemits
    cases hop : m.dispatch.body.op with
    | none =>
      rw [hop] at hemits
      obtain rfl : R' = R sym' := hemits
      rw [Function.update_eq_self]
      simp [opsOn, hop, Reference.run]
    | some r =>
      rw [hop] at hemits
      obtain ⟨hsym, happly⟩ := hemits
      by_cases heq : sym = sym'
      · subst heq
        simp [opsOn, hop, hsym, Reference.run, happly]
      · have hne : r.1 ≠ sym := fun h => heq (h.symm.trans hsym)
        simp [opsOn, hop, hne, Reference.run, heq]

end Mdfh
