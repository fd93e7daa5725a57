import Mdfh.SpscQueue
import Mdfh.Library.Transition

/-!
# The queue is a bounded FIFO

One producer and one consumer, any number of calls, any interleaving of their atomic
steps. The ghost histories record the values published and popped; the invariant places
each unpopped value in the slot its position selects.

## Main definitions

* `Holds` — the ring against the two histories.
* `PushPc.Ok`, `PopPc.Ok` — what a call in progress may rely on.
* `Fifo.system` — the two threads as a transition system.

## Main results

* `PushPc.step_pushed`, `PopPc.step_popped` — what the step that publishes or frees a slot does.
* `PushPc.Ok.frame`, `PopPc.Ok.frame` — a call in progress survives the other side's steps.
* `Fifo.fifo` — order, bound, failures and slot separation in every reachable state.
-/

namespace Mdfh

open Library SPSCQueue

/-! ## Positions modulo the capacity -/

/-- Positions less than a lap apart have different slots. -/
theorem eq_of_mod_eq {cap i j : Nat} (hij : i ≤ j) (hlap : j < i + cap) (h : i % cap = j % cap) :
    i = j := by
  have hdvd : cap ∣ j - i := (Nat.modEq_iff_dvd' hij).mp h
  have hzero := Nat.eq_zero_of_dvd_of_lt hdvd (by omega)
  omega

variable {T : Type} {cap : Nat}

/-- The ring after `published` was pushed and `popped` was popped. -/
structure Holds (q : SPSCQueue T cap) (published popped : List T) : Prop where
  head : q.head.val = published.length % cap
  tail : q.tail.val = popped.length % cap
  le : popped.length ≤ published.length
  room : published.length < popped.length + cap
  isPrefix : popped = published.take popped.length
  slots : ∀ i (hi : i < published.length), popped.length ≤ i →
    q.buffer[q.slot i] = published[i]

def PushPc.Ok (q : SPSCQueue T cap) (published popped : List T) : PushPc T cap → Prop
  | loadHead _ => True
  | loadTail _ head => head = q.head
  | copy _ head => head = q.head ∧ published.length + 1 < popped.length + cap
  | storeHead item head => head = q.head ∧ published.length + 1 < popped.length + cap ∧
      q.buffer.get head = item

def PopPc.Ok (q : SPSCQueue T cap) (published popped : List T) : PopPc T cap → Prop
  | loadTail => True
  | loadHead tail => tail = q.tail
  | copy tail => tail = q.tail ∧ popped.length < published.length
  | storeTail tail out => tail = q.tail ∧ published[popped.length]? = some out

namespace Holds

variable {q : SPSCQueue T cap} {published popped : List T}

/-- The indices coincide exactly when everything published has been popped. -/
theorem empty_iff (h : Holds q published popped) :
    q.tail = q.head ↔ popped.length = published.length := by
  rw [Fin.ext_iff, h.head, h.tail]
  exact ⟨fun heq => eq_of_mod_eq h.le h.room heq, fun heq => by rw [heq]⟩

/-- The producer sees a full ring exactly when all slots but one are in use. -/
theorem full_iff (h : Holds q published popped) {k : Nat} (hcap : cap = 2 ^ k) :
    bump q.head = q.tail ↔ published.length + 1 = popped.length + cap := by
  rw [Fin.ext_iff, bump_val hcap, h.head, h.tail, Nat.mod_add_mod]
  constructor
  · intro heq
    by_contra hne
    have hroom := h.room
    have hle := h.le
    have := eq_of_mod_eq (by omega : popped.length ≤ published.length + 1) (by omega) heq.symm
    omega
  · intro heq
    rw [heq, Nat.add_mod_right]

theorem length_contents (h : Holds q published popped) :
    q.contents.length = published.length - popped.length := by
  have hlap := h.room
  obtain ⟨d, hd⟩ := Nat.exists_eq_add_of_le h.le
  have htail : popped.length % cap < cap := Nat.mod_lt _ q.tail.pos
  have hhead : q.head.val = if popped.length % cap + d < cap then popped.length % cap + d
      else popped.length % cap + d - cap := by
    rw [h.head, hd, ← Nat.mod_add_mod]
    split_ifs with hlt
    · exact Nat.mod_eq_of_lt hlt
    · rw [Nat.mod_eq_sub_mod (by omega), Nat.mod_eq_of_lt (by omega)]
  have hdist : (q.head.val + cap - q.tail.val) % cap = d := by
    rw [hhead, h.tail]
    split_ifs with hlt
    · rw [show popped.length % cap + d + cap - popped.length % cap = d + cap by omega,
        Nat.add_mod_right, Nat.mod_eq_of_lt (by omega)]
    · rw [show popped.length % cap + d - cap + cap - popped.length % cap = d by omega,
        Nat.mod_eq_of_lt (by omega)]
  rw [contents, List.length_map, List.length_range, hdist]
  omega

/-- Popped so far, then the contents of the ring: exactly what was published. -/
theorem popped_append_contents (h : Holds q published popped) :
    popped ++ q.contents = published := by
  have hle := h.le
  have hlen := h.length_contents
  have hcontents : q.contents = published.drop popped.length := by
    refine List.ext_getElem (by rw [hlen, List.length_drop]) ?_
    intro i hi hi'
    rw [List.length_drop] at hi'
    rw [List.getElem_drop, ← h.slots (popped.length + i) (by omega) (by omega)]
    simp only [contents, List.getElem_map, List.getElem_range, slot, h.tail, Nat.mod_add_mod]
  rw [hcontents]
  nth_rewrite 1 [h.isPrefix]
  exact List.take_append_drop _ _

end Holds

/-! ## One step of a call -/

variable {q q' : SPSCQueue T cap} {published popped more : List T}

/-- A call of the producer does not see what the consumer does. -/
theorem PushPc.Ok.frame {pc : PushPc T cap} (h : pc.Ok q published popped)
    (hhead : q'.head = q.head) (hbuffer : q'.buffer = q.buffer) :
    pc.Ok q' published (popped ++ more) := by
  cases pc with
  | loadHead item => trivial
  | loadTail item head => exact h.trans hhead.symm
  | copy item head =>
    obtain ⟨rfl, hroom⟩ := h
    refine ⟨hhead.symm, ?_⟩
    rw [List.length_append]
    omega
  | storeHead item head =>
    obtain ⟨rfl, hroom, hitem⟩ := h
    refine ⟨hhead.symm, ?_, ?_⟩
    · rw [List.length_append]
      omega
    · rw [hbuffer]
      exact hitem

/-- A call of the consumer does not see what the producer does. -/
theorem PopPc.Ok.frame {pc : PopPc T cap} (h : pc.Ok q published popped)
    (htail : q'.tail = q.tail) : pc.Ok q' (published ++ more) popped := by
  cases pc with
  | loadTail => trivial
  | loadHead tail => exact h.trans htail.symm
  | copy tail =>
    obtain ⟨rfl, hlt⟩ := h
    refine ⟨htail.symm, ?_⟩
    rw [List.length_append]
    omega
  | storeTail tail out =>
    obtain ⟨rfl, hout⟩ := h
    refine ⟨htail.symm, ?_⟩
    rw [List.getElem?_append_left (List.getElem?_eq_some_iff.mp hout).1]
    exact hout

theorem PushPc.step_continue {pc pc' : PushPc T cap} {k : Nat} (hcap : cap = 2 ^ k)
    (h : Holds q published popped) (hpc : pc.Ok q published popped)
    (hstep : pc.step q = (q', .inl pc')) :
    Holds q' published popped ∧ pc'.Ok q' published popped ∧ pc'.item = pc.item ∧
      q'.tail = q.tail := by
  cases pc with
  | loadHead item =>
    cases hstep
    exact ⟨h, rfl, rfl, rfl⟩
  | loadTail item head =>
    simp only [PushPc.step] at hstep
    split_ifs at hstep with hfull
    · simp at hstep
    · cases hstep
      obtain rfl : head = q.head := hpc
      have hroom := h.room
      have hne := mt (h.full_iff hcap).mpr hfull
      exact ⟨h, ⟨rfl, by omega⟩, rfl, rfl⟩
  | copy item head =>
    obtain ⟨rfl, hroom⟩ := hpc
    cases hstep
    refine ⟨⟨h.head, h.tail, h.le, h.room, h.isPrefix, fun i hi hlow => ?_⟩,
      ⟨rfl, hroom, Vector.getElem_set_self ..⟩, rfl, rfl⟩
    -- The slot written is the one behind the last published item.
    have hslot : q.head.val ≠ (q.slot i).val := by
      rw [h.head]
      intro heq
      have := eq_of_mod_eq hi.le (by have := h.room; omega) heq.symm
      omega
    rw [← h.slots i hi hlow]
    exact Vector.getElem_set_ne q.head.isLt _ hslot
  | storeHead item head => simp [PushPc.step] at hstep

theorem PushPc.step_pushed {pc : PushPc T cap} {k : Nat} (hcap : cap = 2 ^ k)
    (h : Holds q published popped) (hpc : pc.Ok q published popped)
    (hstep : pc.step q = (q', .inr true)) :
    Holds q' (published ++ [pc.item]) popped ∧ q'.tail = q.tail := by
  cases pc with
  | storeHead item head =>
    obtain ⟨rfl, hroom, hitem⟩ := hpc
    cases hstep
    refine ⟨⟨?_, h.tail, ?_, ?_, ?_, fun i hi hlow => ?_⟩, rfl⟩
    · rw [bump_val hcap, h.head, List.length_append, List.length_singleton, Nat.mod_add_mod]
    · rw [List.length_append]
      exact h.le.trans (Nat.le_add_right _ _)
    · rw [List.length_append, List.length_singleton]
      omega
    · rw [List.take_append_of_le_length h.le]
      exact h.isPrefix
    · rw [List.length_append, List.length_singleton] at hi
      by_cases hlast : i = published.length
      · subst hlast
        have hslot : q.slot published.length = q.head := Fin.ext h.head.symm
        change q.buffer[q.slot published.length] = _
        rw [List.getElem_concat_length rfl]
        simp only [hslot]
        exact hitem
      · rw [List.getElem_append_left (by omega), ← h.slots i (by omega) hlow]
        rfl
  | loadHead item => simp [PushPc.step] at hstep
  | loadTail item head =>
    simp only [PushPc.step] at hstep
    split_ifs at hstep <;> simp at hstep
  | copy item head => simp [PushPc.step] at hstep

/-- `try_push` fails only when the ring is full at its read of `tail_`. -/
theorem PushPc.step_full {pc : PushPc T cap} {k : Nat} (hcap : cap = 2 ^ k)
    (h : Holds q published popped) (hpc : pc.Ok q published popped)
    (hstep : pc.step q = (q', .inr false)) : q' = q ∧ q.contents.length = q.capacity := by
  cases pc with
  | loadTail item head =>
    simp only [PushPc.step] at hstep
    split_ifs at hstep with hfull
    · cases hstep
      obtain rfl : head = q.head := hpc
      have hlen := (h.full_iff hcap).mp hfull
      rw [h.length_contents, capacity]
      exact ⟨rfl, by omega⟩
    · simp at hstep
  | loadHead item => simp [PushPc.step] at hstep
  | copy item head => simp [PushPc.step] at hstep
  | storeHead item head => simp [PushPc.step] at hstep

theorem PopPc.step_continue {pc pc' : PopPc T cap} (h : Holds q published popped)
    (hpc : pc.Ok q published popped) (hstep : pc.step q = (q', .inl pc')) :
    q' = q ∧ pc'.Ok q published popped := by
  cases pc with
  | loadTail =>
    cases hstep
    exact ⟨rfl, rfl⟩
  | loadHead tail =>
    simp only [PopPc.step] at hstep
    split_ifs at hstep with hempty
    · simp at hstep
    · cases hstep
      obtain rfl : tail = q.tail := hpc
      have hne := mt h.empty_iff.mpr hempty
      exact ⟨rfl, rfl, lt_of_le_of_ne h.le hne⟩
  | copy tail =>
    obtain ⟨rfl, hlt⟩ := hpc
    cases hstep
    refine ⟨rfl, rfl, ?_⟩
    have hslot : q.slot popped.length = q.tail := Fin.ext h.tail.symm
    rw [List.getElem?_eq_getElem hlt, ← h.slots _ hlt le_rfl]
    simp only [hslot]
  | storeTail tail out => simp [PopPc.step] at hstep

theorem PopPc.step_popped {pc : PopPc T cap} {out : T} {k : Nat} (hcap : cap = 2 ^ k)
    (h : Holds q published popped) (hpc : pc.Ok q published popped)
    (hstep : pc.step q = (q', .inr (some out))) :
    Holds q' published (popped ++ [out]) ∧ q'.head = q.head ∧ q'.buffer = q.buffer := by
  cases pc with
  | storeTail tail out' =>
    obtain ⟨rfl, hout⟩ := hpc
    cases hstep
    obtain ⟨hlt, hget⟩ := List.getElem?_eq_some_iff.mp hout
    have hroom := h.room
    refine ⟨⟨h.head, ?_, ?_, ?_, ?_, fun i hi hlow => ?_⟩, rfl, rfl⟩
    · rw [bump_val hcap, h.tail, List.length_append, List.length_singleton, Nat.mod_add_mod]
    · rw [List.length_append, List.length_singleton]
      exact hlt
    · rw [List.length_append, List.length_singleton]
      omega
    · rw [List.length_append, List.length_singleton, List.take_add_one, hout, ← h.isPrefix]
      rfl
    · rw [List.length_append, List.length_singleton] at hlow
      exact h.slots i hi (by omega)
  | loadTail => simp [PopPc.step] at hstep
  | loadHead tail =>
    simp only [PopPc.step] at hstep
    split_ifs at hstep <;> simp at hstep
  | copy tail => simp [PopPc.step] at hstep

/-- `try_pop` fails only when the ring is empty at its read of `head_`. -/
theorem PopPc.step_empty {pc : PopPc T cap} (h : Holds q published popped)
    (hpc : pc.Ok q published popped) (hstep : pc.step q = (q', .inr none)) :
    q' = q ∧ q.contents = [] := by
  cases pc with
  | loadHead tail =>
    simp only [PopPc.step] at hstep
    split_ifs at hstep with hempty
    · cases hstep
      obtain rfl : tail = q.tail := hpc
      have hlen := h.empty_iff.mp hempty
      refine ⟨rfl, List.eq_nil_of_length_eq_zero ?_⟩
      rw [h.length_contents, hlen, Nat.sub_self]
    · simp at hstep
  | loadTail => simp [PopPc.step] at hstep
  | copy tail => simp [PopPc.step] at hstep
  | storeTail tail out => simp [PopPc.step] at hstep

/-! ## The two threads -/

theorem RoundsTo.pos {capacity p : UInt64} (h : RoundsTo capacity p) : 0 < p.toNat :=
  Nat.lt_of_lt_of_le Nat.zero_lt_two h.pow.2.1

theorem holds_new [Inhabited T] (hcap : 0 < cap) : Holds (new (T := T) hcap) [] [] where
  head := (Nat.zero_mod cap).symm
  tail := (Nat.zero_mod cap).symm
  le := le_rfl
  room := by simpa using hcap
  isPrefix := rfl
  slots i hi := absurd hi (by simp)

namespace Fifo

/-- The producer between calls, inside `try_push` or inside `empty`. -/
inductive ProducerPc (T : Type) (cap : Nat) where
  | idle
  | pushing (pc : PushPc T cap)
  | testing (pc : EmptyPc cap)

inductive ConsumerPc (T : Type) (cap : Nat) where
  | idle
  | popping (pc : PopPc T cap)
  | testing (pc : EmptyPc cap)

/-- The shared ring, the two threads, and the ghost histories. -/
structure State (T : Type) (cap : Nat) where
  q : SPSCQueue T cap
  producer : ProducerPc T cap := .idle
  consumer : ConsumerPc T cap := .idle
  published : List T := []
  popped : List T := []

/-- A thread starts a call, or takes the next step of the call it is in. -/
inductive Action (T : Type) where
  | callPush (item : T)
  | producerEmpty (headFirst : Bool)
  | producerStep
  | callPop
  | consumerEmpty (headFirst : Bool)
  | consumerStep

def stepProducer (s : State T cap) : Option (State T cap) :=
  match s.producer with
  | .idle => none
  | .pushing pc =>
    match pc.step s.q with
    | (q, .inl pc) => some { s with q, producer := .pushing pc }
    | (q, .inr true) =>
      some { s with q, producer := .idle, published := s.published ++ [pc.item] }
    | (q, .inr false) => some { s with q, producer := .idle }
  | .testing pc =>
    match pc.step s.q with
    | .inl pc => some { s with producer := .testing pc }
    | .inr _ => some { s with producer := .idle }

def stepConsumer (s : State T cap) : Option (State T cap) :=
  match s.consumer with
  | .idle => none
  | .popping pc =>
    match pc.step s.q with
    | (q, .inl pc) => some { s with q, consumer := .popping pc }
    | (q, .inr (some out)) => some { s with q, consumer := .idle, popped := s.popped ++ [out] }
    | (q, .inr none) => some { s with q, consumer := .idle }
  | .testing pc =>
    match pc.step s.q with
    | .inl pc => some { s with consumer := .testing pc }
    | .inr _ => some { s with consumer := .idle }

def step (s : State T cap) : Action T → Option (State T cap)
  | .callPush item =>
    match s.producer with
    | .idle => some { s with producer := .pushing (.loadHead item) }
    | _ => none
  | .producerEmpty headFirst =>
    match s.producer with
    | .idle => some { s with producer := .testing (.first headFirst) }
    | _ => none
  | .producerStep => stepProducer s
  | .callPop =>
    match s.consumer with
    | .idle => some { s with consumer := .popping .loadTail }
    | _ => none
  | .consumerEmpty headFirst =>
    match s.consumer with
    | .idle => some { s with consumer := .testing (.first headFirst) }
    | _ => none
  | .consumerStep => stepConsumer s

variable (T) in
def system [Inhabited T] (hcap : 0 < cap) : System (State T cap) (Action T) where
  start := { q := new hcap }
  step := step

structure Inv (s : State T cap) : Prop where
  holds : Holds s.q s.published s.popped
  producer : ∀ pc, s.producer = .pushing pc → pc.Ok s.q s.published s.popped
  consumer : ∀ pc, s.consumer = .popping pc → pc.Ok s.q s.published s.popped

variable {s s' : State T cap} {k : Nat}

theorem Inv.stepProducer (hcap : cap = 2 ^ k) (h : Inv s) (hstep : stepProducer s = some s') :
    Inv s' := by
  unfold Fifo.stepProducer at hstep
  split at hstep
  next => simp at hstep
  next pc hpc =>
    have hok := h.producer pc hpc
    split at hstep
    next q pc' hq =>
      cases hstep
      obtain ⟨hholds, hok', -, htail⟩ := PushPc.step_continue hcap h.holds hok hq
      refine ⟨hholds, by rintro _ ⟨⟩; exact hok', fun pc hcons => ?_⟩
      have hframe : pc.Ok q (s.published ++ []) s.popped := (h.consumer pc hcons).frame htail
      rwa [List.append_nil] at hframe
    next q hq =>
      cases hstep
      obtain ⟨hholds, htail⟩ := PushPc.step_pushed hcap h.holds hok hq
      exact ⟨hholds, nofun, fun pc hcons => (h.consumer pc hcons).frame htail⟩
    next q hq =>
      cases hstep
      obtain ⟨rfl, -⟩ := PushPc.step_full hcap h.holds hok hq
      exact ⟨h.holds, nofun, h.consumer⟩
  next pc hpc =>
    split at hstep <;> cases hstep
    · exact ⟨h.holds, nofun, h.consumer⟩
    · exact ⟨h.holds, nofun, h.consumer⟩

theorem Inv.stepConsumer (hcap : cap = 2 ^ k) (h : Inv s) (hstep : stepConsumer s = some s') :
    Inv s' := by
  unfold Fifo.stepConsumer at hstep
  split at hstep
  next => simp at hstep
  next pc hpc =>
    have hok := h.consumer pc hpc
    split at hstep
    next q pc' hq =>
      cases hstep
      obtain ⟨rfl, hok'⟩ := PopPc.step_continue h.holds hok hq
      exact ⟨h.holds, h.producer, by rintro _ ⟨⟩; exact hok'⟩
    next q out hq =>
      cases hstep
      obtain ⟨hholds, hhead, hbuffer⟩ := PopPc.step_popped hcap h.holds hok hq
      exact ⟨hholds, fun pc hprod => (h.producer pc hprod).frame hhead hbuffer,
        nofun⟩
    next q hq =>
      cases hstep
      obtain ⟨rfl, -⟩ := PopPc.step_empty h.holds hok hq
      exact ⟨h.holds, h.producer, nofun⟩
  next pc hpc =>
    split at hstep <;> cases hstep
    · exact ⟨h.holds, h.producer, nofun⟩
    · exact ⟨h.holds, h.producer, nofun⟩

theorem Inv.step (hcap : cap = 2 ^ k) (h : Inv s) (a : Action T) (hstep : step s a = some s') :
    Inv s' := by
  cases a with
  | callPush item =>
    simp only [Fifo.step] at hstep
    split at hstep <;> cases hstep
    exact ⟨h.holds, by rintro _ ⟨⟩; trivial, h.consumer⟩
  | producerEmpty headFirst =>
    simp only [Fifo.step] at hstep
    split at hstep <;> cases hstep
    exact ⟨h.holds, nofun, h.consumer⟩
  | producerStep => exact h.stepProducer hcap hstep
  | callPop =>
    simp only [Fifo.step] at hstep
    split at hstep <;> cases hstep
    exact ⟨h.holds, h.producer, by rintro _ ⟨⟩; trivial⟩
  | consumerEmpty headFirst =>
    simp only [Fifo.step] at hstep
    split at hstep <;> cases hstep
    exact ⟨h.holds, h.producer, nofun⟩
  | consumerStep => exact h.stepConsumer hcap hstep

theorem inv_of_reachable [Inhabited T] {hpos : 0 < cap} (hcap : cap = 2 ^ k)
    (hs : (system T hpos).Reachable s) : Inv s :=
  hs.invariant ⟨holds_new hpos, nofun, nofun⟩
    fun _ a _ hinv hstep => hinv.step hcap a hstep

/-- The queue is a bounded FIFO under every interleaving: what was popped followed by the
contents is what was published, the contents never exceed the capacity, a push fails only
at a full ring and a pop only at an empty one, each at its read of the other side's index,
and the slot about to be written is not the slot about to be read. -/
theorem fifo [Inhabited T] {capacity p : UInt64} (hround : RoundsTo capacity p)
    {s : State T p.toNat} (hs : (system T hround.pos).Reachable s) :
    s.popped ++ s.q.contents = s.published ∧ s.q.contents.length ≤ s.q.capacity ∧
      (∀ pc, s.producer = .pushing pc → (pc.step s.q).2 = .inr false →
        s.q.contents.length = s.q.capacity) ∧
      (∀ pc, s.consumer = .popping pc → (pc.step s.q).2 = .inr none → s.q.contents = []) ∧
      ∀ item head tail, s.producer = .pushing (.copy item head) →
        s.consumer = .popping (.copy tail) → head ≠ tail := by
  obtain ⟨⟨k, hcap⟩, -, -⟩ := hround.pow
  have hinv := inv_of_reachable hcap hs
  refine ⟨hinv.holds.popped_append_contents, ?_, ?_, ?_, ?_⟩
  · have hroom := hinv.holds.room
    rw [hinv.holds.length_contents, SPSCQueue.capacity]
    omega
  · intro pc hpc hfail
    exact (PushPc.step_full hcap hinv.holds (hinv.producer pc hpc) (Prod.ext rfl hfail)).2
  · intro pc hpc hfail
    exact (PopPc.step_empty hinv.holds (hinv.consumer pc hpc) (Prod.ext rfl hfail)).2
  · intro item head tail hprod hcons heq
    obtain ⟨rfl, -⟩ := hinv.producer _ hprod
    obtain ⟨rfl, hlt⟩ := hinv.consumer _ hcons
    exact hlt.ne (hinv.holds.empty_iff.mp heq.symm)

theorem roundsTo_three : RoundsTo 3 4 := ⟨3, by decide⟩

/-- A push completes between two steps of a pop; a second push is under way. -/
def overlappingRun : List (Action Nat) :=
  [.callPop, .consumerStep, .callPush 7, .producerStep, .producerStep, .producerStep,
    .producerStep, .consumerStep, .callPush 8, .producerStep]

theorem fifo_overlapping :
    ∃ s, (system Nat roundsTo_three.pos).run (system Nat roundsTo_three.pos).start overlappingRun =
        some s ∧ s.published = [7] ∧ s.popped ++ s.q.contents = s.published := by
  have hsome : ((system Nat roundsTo_three.pos).run (system Nat roundsTo_three.pos).start
      overlappingRun).isSome = true := rfl
  obtain ⟨s, hs⟩ := Option.isSome_iff_exists.mp hsome
  refine ⟨s, hs, ?_, (fifo roundsTo_three ⟨overlappingRun, hs⟩).1⟩
  exact congrArg State.published (Option.some.inj hs).symm

end Fifo

end Mdfh
