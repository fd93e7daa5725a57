import Mdfh.BookBuilder
import Mdfh.Library.Interleave

/-!
# Isolation of events and of symbols

A rejected event changes no book, but the lookup in front of it creates the book of its
symbol. Events of different symbols do not see each other, so a builder's final state
depends only on the sequence of events of each symbol.

## Main definitions

* `fingerprintIn` — the fingerprint with the books visited in the order of a list.
* `BookBuilder.build` — a run of events into a fresh builder.
* `SameBySymbol` — the same events, interleaved differently.

## Main results

* `BookBuilder.onMessage_rejected` — all that a rejected event can leave is an empty book.
* `BookBuilder.build_interleaving` — the interleaving of the symbols is irrelevant.
-/

namespace Mdfh

open Std Library

/-! ## Books without the event -/

/-- A call that returns `false` changes nothing. -/
theorem OrderBook.apply_rejected {b b' : OrderBook} {op : OrderBook.Op}
    (h : b.apply op = some (b', false)) : b' = b := by
  have hcancel {id : OrderId} (h : b.cancel id = some (b', false)) : b' = b := by
    unfold OrderBook.cancel at h
    split at h
    · simpa using h.symm
    · simp [Option.bind_eq_some_iff] at h
  cases op with
  | add id side price qty =>
    simp only [OrderBook.apply, OrderBook.add, Option.some.injEq] at h
    split_ifs at h
    · exact (congrArg Prod.fst h).symm
    · exact (congrArg Prod.fst h).symm
    · simp at h
  | cancel id => exact hcancel h
  | modify id newPrice newQty =>
    simp only [OrderBook.apply, OrderBook.modify] at h
    split_ifs at h with hzero
    · exact hcancel h
    · split at h
      · simpa using h.symm
      · simp [Option.bind_eq_some_iff] at h
        obtain ⟨o, -, h⟩ := h
        split_ifs at h <;> simp [Option.bind_eq_some_iff] at h
  | execute id qty =>
    simp only [OrderBook.apply, OrderBook.execute] at h
    split at h
    · simpa using h.symm
    · simp [Option.bind_eq_some_iff] at h
      obtain ⟨o, -, b₁, -, o', -, h⟩ := h
      split_ifs at h <;> simp [Option.bind_eq_some_iff] at h
  | clear => simp [OrderBook.apply] at h

theorem Book.apply_rejected {b : Book} {op : OrderBook.Op} (h : (b.apply op).2 = false) :
    (b.apply op).1 = b := by
  have hval := b.apply_val op
  rw [h] at hval
  exact Subtype.ext (OrderBook.apply_rejected hval)

namespace BookManager

variable {m : BookManager}

theorem ext_find {m m' : BookManager} (h : ∀ symbol, m.find symbol = m'.find symbol) : m = m' := by
  obtain ⟨books⟩ := m
  obtain ⟨books'⟩ := m'
  exact congrArg BookManager.mk (ExtTreeMap.ext_getElem? h)

theorem book_eq (m : BookManager) (symbol : SymbolId) :
    m.book symbol = (m.find symbol).getD (Book.empty symbol) := ExtTreeMap.getD_eq_getD_getElem?

theorem find_setBook (m : BookManager) (symbol symbol' : SymbolId) (b : Book) :
    (m.setBook symbol b).find symbol' = if symbol = symbol' then some b else m.find symbol' :=
  OrdMap.getElem?_insert m.books symbol symbol' b

/-- Writing back what was read changes nothing, unless the read created the book. -/
theorem setBook_book {symbol : SymbolId} (h : m.find symbol ≠ none) : m.setBook symbol (m.book symbol) = m := by
  refine ext_find ?_
  intro symbol'
  rw [find_setBook]
  split_ifs with hsymbol
  · subst hsymbol
    obtain ⟨b, hb⟩ := Option.ne_none_iff_exists'.mp h
    rw [book_eq, hb, Option.getD_some]
  · rfl

end BookManager

/-! ## Fingerprints -/

/-- The contributions of the books, added up in the order of a list. -/
def fingerprintIn (books : List (SymbolId × Book)) : UInt64 :=
  books.foldl (fun acc e => acc + symbolFingerprint e.1 e.2.val) 0

theorem bookFingerprint_eq (m : BookManager) : bookFingerprint m = fingerprintIn m.books.toList :=
  ExtTreeMap.foldl_eq_foldl_toList

/-- The order in which the books are visited is irrelevant. -/
theorem fingerprintIn_perm {l l' : List (SymbolId × Book)} (h : l.Perm l') :
    fingerprintIn l = fingerprintIn l' := by
  refine h.foldl_eq' ?_ 0
  intro x _ y _ acc
  ac_rfl

theorem fingerprintIn_cons (e : SymbolId × Book) (l : List (SymbolId × Book)) :
    fingerprintIn (e :: l) = fingerprintIn l + symbolFingerprint e.1 e.2.val := by
  rw [← fingerprintIn_perm (List.perm_append_singleton e l), fingerprintIn, List.foldl_append]
  rfl

theorem bookFingerprint_setBook {m : BookManager} {symbol : SymbolId} (h : m.find symbol = none)
    (b : Book) :
    bookFingerprint (m.setBook symbol b) = bookFingerprint m + symbolFingerprint symbol b.val := by
  rw [bookFingerprint_eq, bookFingerprint_eq, ← fingerprintIn_cons (symbol, b)]
  exact fingerprintIn_perm (OrdMap.toList_insert_perm _ _ _ h)

/-! ## Rejected events -/

namespace BookBuilder

/-- All that a rejected event can leave is the empty book that the lookup created. -/
theorem onMessage_rejected (b : BookBuilder) (hdr : MessageHeader) {body : Body}
    {symbol : SymbolId} {op : OrderBook.Op} (hbody : body.op = some (symbol, op))
    (hrej : (builderHandler.onMessage hdr body b).stats.rejected = b.stats.rejected + 1) :
    let b' := builderHandler.onMessage hdr body b
    (b.manager.find symbol ≠ none → b'.manager = b.manager) ∧
      (b.manager.find symbol = none →
        b'.manager.find symbol = some (Book.empty symbol) ∧
        (∀ symbol' ≠ symbol, b'.manager.find symbol' = b.manager.find symbol') ∧
        b'.manager.symbolCount = b.manager.symbolCount + 1 ∧
        bookFingerprint b'.manager =
          bookFingerprint b.manager + symbolFingerprint symbol { symbol }) := by
  have hmanager : (builderHandler.onMessage hdr body b).manager =
      b.manager.setBook symbol (b.manager.book symbol) := by
    rw [onMessage_eq, step, BookStats.tally_rejected] at hrej
    have hret : (b.manager.touch body).2 = false := by
      by_contra hret
      rw [if_pos (by simpa using hret)] at hrej
      simp at hrej
    rw [onMessage_eq, step]
    simp only [BookManager.touch, hbody] at hret ⊢
    rw [Book.apply_rejected hret]
  intro b'
  rw [show b'.manager = _ from hmanager]
  refine ⟨BookManager.setBook_book, ?_⟩
  intro hnone
  rw [show b.manager.book symbol = Book.empty symbol by rw [BookManager.book_eq, hnone]; rfl]
  refine ⟨by rw [BookManager.find_setBook, if_pos rfl], ?_, ?_, bookFingerprint_setBook hnone _⟩
  · intro symbol' hne
    rw [BookManager.find_setBook, if_neg hne.symm]
  · have hfresh : b.manager.books.contains symbol = false := by
      rw [ExtTreeMap.contains_eq_isSome_getElem?, Option.isSome_eq_false_iff]
      exact Option.isNone_iff_eq_none.mpr hnone
    rw [BookManager.symbolCount, BookManager.setBook, ExtTreeMap.size_insert, hfresh]
    rfl

theorem onMessage_rejected_cancel :
    let b' := builderHandler.onMessage {} (.cancelOrder { symbol := 1, orderId := 999 }) {}
    b'.manager.find 1 = some (Book.empty 1) ∧ b'.manager.symbolCount = 1 := by
  have hop : (Body.cancelOrder { symbol := 1, orderId := 999 }).op = some (1, .cancel 999) := rfl
  have h := (onMessage_rejected {} {} hop (by decide +kernel)).2 (by decide +kernel)
  exact ⟨h.1, h.2.2.1⟩

/-- A cancel of an unknown order of an unknown symbol is rejected, and leaves a book behind. -/
theorem cancel_leaves_book :
    let b : BookBuilder := {}
    let b' := builderHandler.onMessage {} (.cancelOrder { symbol := 1, orderId := 999 }) b
    b'.stats.rejected = b.stats.rejected + 1 ∧
      b.manager.find 1 = none ∧ b'.manager.find 1 ≠ none ∧
      b'.manager.symbolCount ≠ b.manager.symbolCount ∧
      bookFingerprint b'.manager ≠ bookFingerprint b.manager := by
  decide +kernel

end BookBuilder

/-! ## Interleavings -/

/-- The events of a run that carry a symbol, in order. -/
def carrying (symbol : SymbolId) (events : List (MessageHeader × Body)) :
    List (MessageHeader × Body) :=
  events.filter fun e => e.2.op.map Prod.fst = some symbol

/-- The same events of every symbol in the same order, interleaved in any way, and the same
numbers of snapshots and heartbeats. -/
structure SameBySymbol (xs ys : List (MessageHeader × Body)) : Prop where
  carrying (symbol : SymbolId) :
    (carrying symbol xs).map Prod.snd = (carrying symbol ys).map Prod.snd
  snapshots : xs.countP (msgTypeOf ·.2 = .bookSnapshot) = ys.countP (msgTypeOf ·.2 = .bookSnapshot)
  heartbeats : xs.countP (msgTypeOf ·.2 = .heartbeat) = ys.countP (msgTypeOf ·.2 = .heartbeat)

/-- What an event is about: a symbol, or one of the kinds that are only counted. -/
def Body.component (body : Body) : SymbolId ⊕ MsgType :=
  match body.op with
  | some (symbol, _) => .inl symbol
  | none => .inr (msgTypeOf body)

/-- An event without the content that the builder ignores. -/
def Body.blank : Body → Body
  | .bookSnapshot _ => .bookSnapshot {}
  | body => body

namespace Body

variable {body : Body}

theorem component_blank (body : Body) : body.blank.component = body.component := by
  cases body <;> rfl

theorem component_eq_inl {symbol : SymbolId} :
    body.component = .inl symbol ↔ body.op.map Prod.fst = some symbol := by
  cases body <;> simp [component, op]

theorem component_eq_inr {kind : MsgType} :
    body.component = .inr kind ↔
      msgTypeOf body = kind ∧ (kind = .bookSnapshot ∨ kind = .heartbeat) := by
  cases body <;> cases kind <;> simp [component, op, msgTypeOf]

/-- The events with an operation have no content to ignore. -/
theorem blank_of_op {symbol : SymbolId} (h : body.op.map Prod.fst = some symbol) :
    body.blank = body := by
  cases body with
  | bookSnapshot m => exact absurd h nofun
  | _ => rfl

end Body

theorem BookStats.tally_comm (st : BookStats) (body body' : Body) (ok ok' : Bool) :
    (st.tally body ok).tally body' ok' = (st.tally body' ok').tally body ok := by
  cases ok <;> cases ok' <;> cases body <;> cases body' <;> rfl

namespace BookManager

variable {m : BookManager}

theorem setBook_comm {symbol symbol' : SymbolId} (h : symbol ≠ symbol') (b b' : Book) :
    (m.setBook symbol b).setBook symbol' b' = (m.setBook symbol' b').setBook symbol b := by
  refine ext_find ?_
  intro k
  simp only [find_setBook]
  grind

/-- Events of different components do not see each other. -/
theorem touch_comm {body body' : Body} (h : body.component ≠ body'.component) :
    ((m.touch body).1.touch body').1 = ((m.touch body').1.touch body).1 ∧
      ((m.touch body).1.touch body').2 = (m.touch body').2 := by
  rcases hop : body.op with _ | ⟨symbol, op⟩
  · simp [touch, hop]
  rcases hop' : body'.op with _ | ⟨symbol', op'⟩
  · simp [touch, hop, hop']
  have hne : symbol ≠ symbol' := by
    simpa [Body.component, hop, hop'] using h
  simp only [touch, hop, hop', book_setBook, if_neg hne, if_neg hne.symm, and_true]
  exact setBook_comm hne _ _

end BookManager

namespace BookBuilder

/-- A run of events into a fresh builder. -/
def build (events : List (MessageHeader × Body)) : BookBuilder :=
  events.foldl (fun b e => builderHandler.onMessage e.1 e.2 b) {}

theorem step_blank (b : BookBuilder) (body : Body) : b.step body.blank = b.step body := by
  cases body <;> rfl

theorem step_commutes : Interleave.Commutes Body.component step := by
  intro b body body' h
  obtain ⟨hmanager, hok⟩ := b.manager.touch_comm h
  obtain ⟨-, hok'⟩ := b.manager.touch_comm h.symm
  simp only [step, hmanager, hok, hok', BookStats.tally_comm]

theorem build_eq (events : List (MessageHeader × Body)) :
    build events = (events.map fun e => e.2.blank).foldl step {} := by
  rw [build, List.foldl_map]
  simp only [onMessage_eq, step_blank]

theorem projection_blank (k : SymbolId ⊕ MsgType) (events : List (MessageHeader × Body)) :
    Interleave.projection Body.component k (events.map fun e => e.2.blank) =
      (events.filter (·.2.component = k)).map fun e => e.2.blank := by
  simp only [Interleave.projection, List.filter_map, Function.comp_def, Body.component_blank]

theorem projection_symbol (symbol : SymbolId) (events : List (MessageHeader × Body)) :
    Interleave.projection Body.component (.inl symbol) (events.map fun e => e.2.blank) =
      (carrying symbol events).map Prod.snd := by
  simp only [projection_blank, Body.component_eq_inl, carrying]
  refine List.map_congr_left ?_
  intro e he
  exact Body.blank_of_op (by simpa using (List.mem_filter.mp he).2)

theorem projection_kind (kind : MsgType) (events : List (MessageHeader × Body)) :
    Interleave.projection Body.component (.inr kind) (events.map fun e => e.2.blank) =
      List.replicate (events.countP (·.2.component = .inr kind))
        (if kind = .bookSnapshot then .bookSnapshot {} else .heartbeat) := by
  rw [projection_blank, List.countP_eq_length_filter, List.eq_replicate_iff, List.length_map]
  refine ⟨rfl, ?_⟩
  simp only [List.mem_map, List.mem_filter, decide_eq_true_eq]
  rintro _ ⟨⟨hdr, body⟩, ⟨-, hkind⟩, rfl⟩
  cases body with
  | bookSnapshot m => cases hkind; rfl
  | heartbeat => cases hkind; rfl
  | _ => cases hkind

/-- What `SameBySymbol` compares is all that the projections hold. -/
theorem projection_eq {xs ys : List (MessageHeader × Body)} (h : SameBySymbol xs ys)
    (k : SymbolId ⊕ MsgType) :
    Interleave.projection Body.component k (xs.map fun e => e.2.blank) =
      Interleave.projection Body.component k (ys.map fun e => e.2.blank) := by
  cases k with
  | inl symbol => rw [projection_symbol, projection_symbol, h.carrying]
  | inr kind =>
    rw [projection_kind, projection_kind]
    congr 1
    simp only [Body.component_eq_inr]
    cases kind with
    | bookSnapshot => simpa using h.snapshots
    | heartbeat => simpa using h.heartbeats
    | _ => simp

/-- The book of a symbol, as a view of the builder that only its own events change. -/
def bookOf : SymbolId ⊕ MsgType → BookBuilder → Option Book
  | .inl symbol, b => b.manager.find symbol
  | .inr _, _ => none

def stepBookOf (bk : Option Book) (body : Body) : Option Book :=
  body.op.map fun r => ((bk.getD (Book.empty r.1)).apply r.2).1

theorem step_local : Interleave.Local Body.component step bookOf stepBookOf where
  own b body := by
    rcases hop : body.op with _ | ⟨symbol, op⟩
    · simp [Body.component, hop, bookOf, stepBookOf]
    · simp [Body.component, hop, bookOf, stepBookOf, step, BookManager.touch,
        BookManager.find_setBook, BookManager.book_eq]
  other b body k h := by
    rcases hop : body.op with _ | ⟨symbol, op⟩
    · cases k <;> simp [bookOf, step, BookManager.touch, hop]
    · cases k with
      | inl symbol' =>
        have hne : symbol ≠ symbol' := by
          simpa [Body.component, hop] using h
        simp [bookOf, step, BookManager.touch, hop, BookManager.find_setBook, hne]
      | inr kind => rfl

theorem carrying_carrying (symbol : SymbolId) (events : List (MessageHeader × Body)) :
    carrying symbol (carrying symbol events) = carrying symbol events := by
  simp [carrying]

/-- The book of a symbol comes from the events that carry it. -/
theorem find_build (symbol : SymbolId) (events : List (MessageHeader × Body)) :
    (build events).manager.find symbol = (build (carrying symbol events)).manager.find symbol := by
  have hfind (events : List (MessageHeader × Body)) :
      (build events).manager.find symbol =
        ((carrying symbol events).map Prod.snd).foldl stepBookOf none := by
    rw [build_eq, ← projection_symbol]
    exact step_local.foldl (.inl symbol) _ _
  rw [hfind, hfind, carrying_carrying]

/-- Runs that interleave the events of the symbols differently build the same books, with
the same statistics and fingerprint, and each book comes from the events of its symbol
alone. -/
theorem build_interleaving {xs ys : List (MessageHeader × Body)} (h : SameBySymbol xs ys) :
    (build xs).manager = (build ys).manager ∧ (build xs).stats = (build ys).stats ∧
      (∀ l l', l.Perm (build xs).manager.books.toList → l'.Perm (build ys).manager.books.toList →
        fingerprintIn l = bookFingerprint (build ys).manager ∧ fingerprintIn l' = fingerprintIn l) ∧
      ∀ symbol, (build xs).manager.find symbol =
        (build (carrying symbol xs)).manager.find symbol := by
  have heq : build xs = build ys := by
    rw [build_eq, build_eq]
    exact step_commutes.foldl_eq (projection_eq h) {}
  refine ⟨congrArg manager heq, congrArg stats heq, ?_, (find_build · xs)⟩
  intro l l' hl hl'
  rw [fingerprintIn_perm hl, fingerprintIn_perm hl', heq, bookFingerprint_eq]
  exact ⟨rfl, rfl⟩

/-- Two symbols that use one order id, and a snapshot at either end. -/
theorem build_two_symbols :
    let add (symbol : SymbolId) : MessageHeader × Body :=
      ({}, .addOrder { symbol, orderId := 7, side := Side.buy, price := 100, quantity := 5 })
    let cancel : MessageHeader × Body := ({}, .cancelOrder { symbol := 1, orderId := 7 })
    let snapshot : MessageHeader × Body := ({}, .bookSnapshot { symbol := 2 })
    (build [snapshot, add 1, cancel, add 2]).manager =
      (build [add 2, add 1, cancel, snapshot]).manager := by
  intro add cancel snapshot
  have h : SameBySymbol [snapshot, add 1, cancel, add 2] [add 2, add 1, cancel, snapshot] := by
    refine ⟨?_, rfl, rfl⟩
    intro symbol
    by_cases h1 : symbol = 1
    · subst h1
      rfl
    · by_cases h2 : symbol = 2
      · subst h2
        rfl
      · simp [carrying, add, cancel, snapshot, Body.op, Ne.symm h1, Ne.symm h2]
  exact (build_interleaving h).1

end BookBuilder

end Mdfh
