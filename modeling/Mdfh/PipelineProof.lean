import Mdfh.Pipeline

/-!
# The pipeline computes the single-threaded result

The frames still to be pushed, those in the queue and those consumed are always the frames
of the buffer in order. The book thread leaves its loop only after it has seen the flag of
the ingestion thread and then an empty queue, so nothing is left behind.

## Main definitions

* `framesFrom` — the frames the ingestion loop pushes from an offset on.
* `Pipeline.Inv` — the invariant, with one assertion for each program counter.

## Main results

* `framesFrom_messages` — the frames carry the messages of one scan of the buffer.
* `Pipeline.Inv.step` — every step of every thread keeps the invariant.
* `Pipeline.finished_eq_consume` — the result of every finished run.
-/

namespace Mdfh

open Library

/-! ## The frames of a buffer -/

/-- The frames the ingestion loop still has to push at offset `off`. -/
def framesFrom (messages : List UInt8) (off : Nat) : List Frame :=
  if hoff : off + kHeaderWireSize ≤ messages.length then
    match decodeHeader (subspan messages off kHeaderWireSize hoff) with
    | none => []
    | some hdr =>
      let frameLen := kHeaderWireSize + hdr.bodySize.toNat
      if hframe : off + frameLen > messages.length then []
      else if hmax : frameLen > kMaxMessageSize then framesFrom messages (off + frameLen)
      else
        Frame.ofBytes (subspan messages off frameLen (subspan_fits hframe))
          (length_subspan_le hframe hmax) :: framesFrom messages (off + frameLen)
  else []
termination_by messages.length - off
decreasing_by
  all_goals
    simp only [kHeaderWireSize] at *
    omega

theorem Frame.bytes_ofBytes (bytes : List UInt8) (h : bytes.length ≤ kMaxMessageSize) :
    (Frame.ofBytes bytes h).bytes = bytes := by
  have hlen : (UInt16.ofNat bytes.length).toNat = bytes.length := by
    rw [UInt16.toNat_ofNat']
    exact Nat.mod_eq_of_lt (by simp only [kMaxMessageSize, kHeaderWireSize, kSnapshotBodySize,
      kMaxSnapshotLevels] at h; omega)
  rw [Frame.bytes, Frame.ofBytes, hlen, List.take_left]

/-- The messages a list of frames carries. -/
def messagesIn (fs : List Frame) : List (MessageHeader × Body) :=
  fs.flatMap fun f => messagesOf (frameScanner.scan f.bytes)

theorem messagesIn_append (fs gs : List Frame) :
    messagesIn (fs ++ gs) = messagesIn fs ++ messagesIn gs := List.flatMap_append

/-- A frame longer than every well-formed message is a bad one. -/
theorem verdict_oversized {hdr : MessageHeader} (h : kHeaderWireSize + hdr.bodySize.toNat > kMaxMessageSize)
    (body : List UInt8) : verdict hdr body = none := by
  have hle := bodySizeFor_le hdr.type
  have hne : hdr.bodySize.toNat ≠ bodySizeFor hdr.type := by
    simp only [kMaxMessageSize] at h
    omega
  exact if_pos (.inl hne)

/-- Cutting off frames one by one finds the messages of the scan. -/
theorem framesFrom_messages (messages : List UInt8) (off : Nat) (hoff : off ≤ messages.length) :
    messagesIn (framesFrom messages off) =
      messagesOf (frameScanner.scanFrom off (messages.drop off)) := by
  fun_induction framesFrom messages off with
  | case1 off hin hdec =>
    rw [Scanner.scanFrom_stop off (look_invalid hin hdec)]
    rfl
  | case2 off hin hdr hdec frameLen hframe =>
    rw [Scanner.scanFrom_wait off (look_cutOff hin hdec hframe)]
    rfl
  | case3 off hin hdr hdec frameLen hframe hmax ih =>
    have hlook := look_frame hin hdec hframe
    rw [verdict_oversized hmax] at hlook
    rw [ih (by omega), Scanner.scanFrom_unit off hlook, messagesOf_cons, List.drop_drop]
    rfl
  | case4 off hin hdr hdec frameLen hframe hmax ih =>
    obtain ⟨out, hlook, hscan⟩ := exists_look_frame hin hdec hframe
    rw [messagesIn, List.flatMap_cons, ← messagesIn, ih (by omega), Frame.bytes_ofBytes, hscan,
      Scanner.scanFrom_unit off hlook, messagesOf_cons, messagesOf_cons, List.drop_drop]
    exact congrArg (· ++ _) (List.append_nil _)
  | case5 off hin =>
    rw [Scanner.scanFrom_wait off (look_short hin)]
    rfl

/-- Inside `empty`, the index already read is still the current one. -/
def EmptyPc.Current {T : Type} {cap : Nat} (q : SPSCQueue T cap) : EmptyPc cap → Prop
  | first _ => True
  | second true seen => seen = q.head
  | second false seen => seen = q.tail

namespace Pipeline

open FeedHandler

variable {fcap tcap : Nat}

/-! ## The invariant -/

/-- What the ingestion thread still has to publish. -/
def IngestPc.remaining (messages : List UInt8) : IngestPc fcap → List Frame
  | scan off => framesFrom messages off
  | push next f _ | yield next f => f :: framesFrom messages next
  | storeDone | exited => []

def IngestPc.Ok (s : State fcap tcap) : IngestPc fcap → Prop
  | push _ f pc => pc.Ok s.frames s.published s.popped ∧ pc.item = f
  | _ => True

/-- The builder has been fed the frames `consumed`. -/
def Fed (s : State fcap tcap) (consumed : List Frame) : Prop :=
  s.feed.forget = (messagesIn consumed).foldl applyMessage (forget { down := {} }) ∧
    s.messagesParsed = UInt64.ofNat (messagesIn consumed).length

def Drained (messages : List UInt8) (s : State fcap tcap) : Prop :=
  s.popped = framesFrom messages 0

def BookPc.Ok (messages : List UInt8) (s : State fcap tcap) : BookPc fcap tcap → Prop
  | pop pc => pc.Ok s.frames s.published s.popped ∧ Fed s s.popped
  | consume f => ∃ consumed, s.popped = consumed ++ [f] ∧ Fed s consumed
  | emitStart last | emit last _ _ => Fed s s.popped ∧ (last = true → Drained messages s)
  | loadDone | yield => Fed s s.popped
  | testEmpty pc => Fed s s.popped ∧ s.ingestDone = true ∧ pc.Current s.frames
  | finish => Fed s s.popped ∧ Drained messages s
  | storeDone | exited => Fed s s.popped ∧ Drained messages s ∧
      s.fingerprint = bookFingerprint s.feed.down.manager ∧
      s.finalSymbolCount = s.feed.down.manager.symbolCount ∧ s.bookStats = s.feed.down.stats

structure Inv (messages : List UInt8) (s : State fcap tcap) : Prop where
  holds : Holds s.frames s.published s.popped
  ingest : s.ingest.Ok s
  book : s.book.Ok messages s
  remaining : s.published ++ s.ingest.remaining messages = framesFrom messages 0
  done : s.ingestDone = true → s.ingest = .exited

variable {messages : List UInt8} {cfg : Config} {s s' : State fcap tcap} {k : Nat}

/-! ## Steps of the ingestion thread -/

theorem scanStep_remaining (messages : List UInt8) (off : Nat) :
    (scanStep messages off : IngestPc fcap).remaining messages = framesFrom messages off := by
  fun_cases scanStep messages off with
  | case1 hin hdec =>
    rw [framesFrom, dif_pos hin]
    simp only [hdec]
    rfl
  | case2 hin hdr hdec frameLen hframe =>
    rw [framesFrom, dif_pos hin]
    simp only [hdec]
    symm
    exact dif_pos hframe
  | case3 hin hdr hdec frameLen hframe hmax =>
    rw [framesFrom, dif_pos hin]
    simp only [hdec]
    symm
    exact (dif_neg hframe).trans (dif_pos hmax)
  | case4 hin hdr hdec frameLen hframe hmax f =>
    rw [framesFrom, dif_pos hin]
    simp only [hdec]
    symm
    exact (dif_neg hframe).trans (dif_neg hmax)
  | case5 hin =>
    rw [framesFrom, dif_neg hin]
    rfl

theorem scanStep_ok (s : State fcap tcap) (messages : List UInt8) (off : Nat) :
    (scanStep messages off : IngestPc fcap).Ok s := by
  fun_cases scanStep messages off with
  | case1 => trivial
  | case2 => trivial
  | case3 => trivial
  | case4 => exact ⟨trivial, rfl⟩
  | case5 => trivial

/-- The book thread does not see what the ingestion thread does before it is done. -/
theorem BookPc.Ok.frame {pc : BookPc fcap tcap} (h : pc.Ok messages s)
    (hrunning : s.ingestDone = false) {frames : SPSCQueue Frame fcap}
    (htail : frames.tail = s.frames.tail) (more : List Frame) (ingest : IngestPc fcap)
    (ingestDone : Bool) :
    pc.Ok messages
      { s with frames, ingest, ingestDone, published := s.published ++ more } := by
  cases pc with
  | pop pc => exact ⟨h.1.frame htail, h.2⟩
  | testEmpty pc => exact absurd h.2.1 (by simp [hrunning])
  | consume f => exact h
  | emitStart last => exact h
  | emit last todo pc => exact h
  | loadDone => exact h
  | yield => exact h
  | finish => exact h
  | storeDone => exact h
  | exited => exact h

theorem Inv.stepIngest (hcap : fcap = 2 ^ k) (h : Inv messages s)
    (hstep : stepIngest messages s = some s') : Inv messages s' := by
  have hrunning (hne : s.ingest ≠ .exited) : s.ingestDone = false := by
    simpa using mt h.done hne
  have hbook (hne : s.ingest ≠ .exited) {frames : SPSCQueue Frame fcap}
      (htail : frames.tail = s.frames.tail) (ingest : IngestPc fcap) (ingestDone : Bool) :
      s.book.Ok messages { s with frames, ingest, ingestDone } := by
    have := h.book.frame (hrunning hne) htail [] ingest ingestDone
    rwa [List.append_nil] at this
  have hremaining := h.remaining
  have hok := h.ingest
  cases stepIngest_cases hstep with
  | scan hpc =>
    rw [hpc] at hremaining
    refine ⟨h.holds, scanStep_ok _ _ _, hbook (by simp [hpc]) rfl _ _, ?_, ?_⟩
    · rw [scanStep_remaining]
      exact hremaining
    · intro hdone
      exact absurd (h.done hdone) (by simp [hpc])
  | pushing hpc hq =>
    have hne : s.ingest ≠ .exited := by simp [hpc]
    rw [hpc] at hremaining hok
    obtain ⟨hok, rfl⟩ := hok
    obtain ⟨hholds, hok', hitem, htail⟩ := PushPc.step_continue hcap h.holds hok hq
    exact ⟨hholds, ⟨hok', hitem⟩, hbook hne htail _ _, hremaining, fun hd => absurd (h.done hd) hne⟩
  | pushed hpc hq =>
    have hne : s.ingest ≠ .exited := by simp [hpc]
    rw [hpc] at hremaining hok
    obtain ⟨hok, rfl⟩ := hok
    obtain ⟨hholds, htail⟩ := PushPc.step_pushed hcap h.holds hok hq
    refine ⟨hholds, trivial, h.book.frame (hrunning hne) htail _ _ _, ?_,
      fun hd => absurd (h.done hd) hne⟩
    rw [← hremaining]
    exact List.append_assoc _ _ _
  | full hpc hq =>
    have hne : s.ingest ≠ .exited := by simp [hpc]
    rw [hpc] at hremaining hok
    obtain ⟨hok, rfl⟩ := hok
    obtain ⟨rfl, -⟩ := PushPc.step_full hcap h.holds hok hq
    exact ⟨h.holds, trivial, hbook hne rfl _ _, hremaining, fun hd => absurd (h.done hd) hne⟩
  | yield hpc =>
    rw [hpc] at hremaining
    refine ⟨h.holds, ⟨trivial, rfl⟩, hbook (by simp [hpc]) rfl _ _, hremaining, fun hdone => ?_⟩
    exact absurd (h.done hdone) (by simp [hpc])
  | storeDone hpc =>
    rw [hpc] at hremaining
    exact ⟨h.holds, trivial, hbook (by simp [hpc]) rfl _ _, hremaining, fun _ => rfl⟩

/-! ## Steps of the book thread -/

theorem Fed.consume {consumed : List Frame} {f : Frame} (h : Fed s consumed) {s' : State fcap tcap}
    (hfeed : s'.feed = (s.feed.consumeDatagram builderHandler f.bytes).1)
    (hparsed : s'.messagesParsed = s.messagesParsed +
      UInt64.ofNat (s.feed.consumeDatagram builderHandler f.bytes).2.messages) :
    Fed s' (consumed ++ [f]) := by
  have hone : messagesIn [f] = messagesOf (frameScanner.scan f.bytes) := List.append_nil _
  constructor
  · rw [hfeed, forget_consumeDatagram, h.1, messagesIn_append, List.foldl_append, hone]
  · rw [hparsed, consumeDatagram_messages_length, h.2, messagesIn_append, List.length_append, hone,
      UInt64.ofNat_add]

theorem EmptyPc.Current.step {T : Type} {cap : Nat} {q : SPSCQueue T cap} {pc pc' : EmptyPc cap}
    (hstep : pc.step q = .inl pc') : pc'.Current q := by
  cases pc with
  | first headFirst => cases headFirst <;> cases hstep <;> rfl
  | second headFirst seen => cases headFirst <;> cases hstep

theorem EmptyPc.Current.of_true {T : Type} {cap : Nat} {q : SPSCQueue T cap} {pc : EmptyPc cap}
    (h : pc.Current q) (hstep : pc.step q = .inr true) : q.tail = q.head := by
  cases pc with
  | first headFirst => cases headFirst <;> cases hstep
  | second headFirst seen =>
    cases headFirst with
    | true =>
      obtain rfl : seen = q.head := h
      exact (of_decide_eq_true (Sum.inr.inj hstep)).symm
    | false =>
      obtain rfl : seen = q.tail := h
      exact (of_decide_eq_true (Sum.inr.inj hstep)).symm

/-- The flag was set and the queue is empty, so every frame has been popped. -/
theorem Inv.drained (h : Inv messages s) (hdone : s.ingestDone = true)
    (hempty : s.frames.tail = s.frames.head) : Drained messages s := by
  have hall := h.remaining
  rw [h.done hdone, IngestPc.remaining, List.append_nil] at hall
  have hlen := h.holds.empty_iff.mp hempty
  rw [Drained, h.holds.isPrefix, hlen, List.take_length, hall]

theorem Inv.stepBook (hcap : fcap = 2 ^ k) {order : List Tick} {headFirst : Bool}
    (h : Inv messages s) (hstep : stepBook cfg order headFirst s = some s') : Inv messages s' := by
  have hbook := h.book
  cases stepBook_cases hstep with
  | popping hpc hq =>
    rw [hpc] at hbook
    obtain ⟨rfl, hok⟩ := PopPc.step_continue h.holds hbook.1 hq
    exact ⟨h.holds, h.ingest, ⟨hok, hbook.2⟩, h.remaining, h.done⟩
  | popped hpc hq =>
    rw [hpc] at hbook
    obtain ⟨hok, hfed⟩ := hbook
    obtain ⟨hholds, hhead, hbuffer⟩ := PopPc.step_popped hcap h.holds hok hq
    refine ⟨hholds, ?_, ⟨s.popped, rfl, hfed⟩, h.remaining, h.done⟩
    have hing := h.ingest
    revert hing
    cases s.ingest with
    | push next f pc => exact fun hing => ⟨hing.1.frame hhead hbuffer, hing.2⟩
    | scan off => exact id
    | yield next f => exact id
    | storeDone => exact id
    | exited => exact id
  | missed hpc hq =>
    rw [hpc] at hbook
    obtain ⟨rfl, -⟩ := PopPc.step_empty h.holds hbook.1 hq
    exact ⟨h.holds, h.ingest, hbook.2, h.remaining, h.done⟩
  | consume hpc =>
    rw [hpc] at hbook
    obtain ⟨consumed, hpopped, hfed⟩ := hbook
    have hfed' : ∀ s' : State fcap tcap, _ → _ → Fed s' s.popped := fun s' hfeed hparsed =>
      hpopped ▸ hfed.consume hfeed hparsed
    refine ⟨h.holds, h.ingest, ?_, h.remaining, h.done⟩
    simp only
    split
    · exact ⟨hfed' _ rfl rfl, nofun⟩
    · exact ⟨trivial, hfed' _ rfl rfl⟩
  | emitStart hpc | emitNext hpc | pushing hpc | pushed hpc | storeDone hpc =>
    rw [hpc] at hbook
    exact ⟨h.holds, h.ingest, hbook, h.remaining, h.done⟩
  | @emitEnd last hpc =>
    rw [hpc] at hbook
    refine ⟨h.holds, h.ingest, ?_, h.remaining, h.done⟩
    cases last with
    | true => exact ⟨hbook.1, hbook.2 rfl⟩
    | false => exact ⟨trivial, hbook.1⟩
  | loadDone hpc =>
    rw [hpc] at hbook
    refine ⟨h.holds, h.ingest, ?_, h.remaining, h.done⟩
    cases hdone : s.ingestDone with
    | true => exact ⟨hbook, rfl, trivial⟩
    | false => exact hbook
  | testing hpc hq =>
    rw [hpc] at hbook
    obtain ⟨hfed, hdone, -⟩ := hbook
    exact ⟨h.holds, h.ingest, ⟨hfed, hdone, EmptyPc.Current.step hq⟩, h.remaining, h.done⟩
  | drained hpc hq =>
    rw [hpc] at hbook
    obtain ⟨hfed, hdone, hcurrent⟩ := hbook
    have hdrained := h.drained hdone (EmptyPc.Current.of_true hcurrent hq)
    exact ⟨h.holds, h.ingest, ⟨hfed, fun _ => hdrained⟩, h.remaining, h.done⟩
  | refilled hpc hq =>
    rw [hpc] at hbook
    exact ⟨h.holds, h.ingest, hbook.1, h.remaining, h.done⟩
  | yield hpc =>
    rw [hpc] at hbook
    exact ⟨h.holds, h.ingest, ⟨trivial, hbook⟩, h.remaining, h.done⟩
  | finish hpc =>
    rw [hpc] at hbook
    exact ⟨h.holds, h.ingest, ⟨hbook.1, hbook.2, rfl, rfl, rfl⟩, h.remaining, h.done⟩

/-! ## Runs -/

/-- Analytics shares only the ticks with the book thread, and the invariant is not about them. -/
theorem Inv.stepAnalytics {headFirst : Bool} (h : Inv messages s)
    (hstep : stepAnalytics headFirst s = some s') : Inv messages s' := by
  cases stepAnalytics_cases hstep
  all_goals exact ⟨h.holds, h.ingest, h.book, h.remaining, h.done⟩

theorem Inv.step (hcap : fcap = 2 ^ k) (h : Inv messages s) (a : Action)
    (hstep : step messages cfg s a = some s') : Inv messages s' := by
  cases a with
  | ingest => exact h.stepIngest hcap hstep
  | book order headFirst => exact h.stepBook hcap hstep
  | analytics headFirst => exact h.stepAnalytics hstep

theorem inv_of_reachable {hframes : 0 < fcap} {hticks : 0 < tcap} (hcap : fcap = 2 ^ k)
    (hs : (system messages cfg hframes hticks).Reachable s) : Inv messages s := by
  refine hs.invariant ⟨holds_new hframes, trivial, ⟨trivial, rfl, rfl⟩, rfl, nofun⟩ ?_
  exact fun s a s' h hstep => h.step hcap a hstep

instance : Decidable (Finished s) := inferInstanceAs (Decidable (_ ∧ _ ∧ _))

/-- Whatever the schedule, once the three threads have exited every frame of the buffer has
been consumed, once and in order, and the builder is in the state in which one call of
`consume` on the whole buffer leaves a fresh one. Only the counts of malformed frames may
differ: the ingestion loop drops what it cannot cut into frames. -/
theorem finished_eq_consume {fp tp : UInt64} (hframes : RoundsTo cfg.frameQueueCapacity fp)
    (hticks : RoundsTo cfg.tickQueueCapacity tp) {s : State fp.toNat tp.toNat}
    (hs : (system messages cfg hframes.pos hticks.pos).Reachable s) (hfinished : Finished s) :
    let single := consume builderHandler messages { down := {} }
    s.popped = framesFrom messages 0 ∧ s.feed.down.manager = single.1.down.manager ∧
      s.finalSymbolCount = single.1.down.manager.symbolCount ∧
      s.fingerprint = bookFingerprint single.1.down.manager ∧
      { s.bookStats with malformed := 0 } = { single.1.down.stats with malformed := 0 } ∧
      s.messagesParsed = UInt64.ofNat single.2.messages := by
  intro single
  obtain ⟨⟨k, hcap⟩, -, -⟩ := hframes.pow
  have hbook := (inv_of_reachable hcap hs).book
  rw [hfinished.2.1] at hbook
  obtain ⟨⟨hfeed, hparsed⟩, hdrained, hfingerprint, hcount, hstats⟩ := hbook
  have hwalk : messagesIn s.popped = messagesOf (frameScanner.scan messages) := by
    rw [hdrained, framesFrom_messages messages 0 (Nat.zero_le _)]
    rfl
  have hforget : s.feed.forget = single.1.forget := by
    rw [hfeed, hwalk]
    exact (forget_consume messages { down := {} } rfl).symm
  have hmanager : s.feed.down.manager = single.1.down.manager :=
    congrArg (·.down.manager) hforget
  refine ⟨hdrained, hmanager, ?_, ?_, ?_, ?_⟩
  · rw [hcount, hmanager]
  · rw [hfingerprint, hmanager]
  · rw [hstats]
    exact congrArg (·.down.stats) hforget
  · rw [hparsed, hwalk, consume_messages messages { down := {} } rfl]

def smallConfig : Config where
  frameQueueCapacity := 2
  tickQueueCapacity := 2
  analyticsEvery := 1

theorem smallConfig_roundsTo : RoundsTo smallConfig.frameQueueCapacity 2 := ⟨2, by decide⟩

theorem smallConfig_pos : 0 < 2 := smallConfig_roundsTo.pos

/-- One order, and the beginning of another message. -/
def truncatedBuffer : List UInt8 :=
  encodeFrame 1 0 (.addOrder { symbol := 7, orderId := 1, price := 100, quantity := 5 }) ++
    (encodeFrame 2 0 .heartbeat).take 10

def smallSystem : System (State 2 2) Action :=
  system truncatedBuffer smallConfig smallConfig_pos smallConfig_pos

/-- The book thread and analytics first find their queues empty and yield, and the last
tick is dropped because the first is still in the queue. -/
def finishingRun : List Action :=
  let book := .book [{ sym := 7, bid := 100 }] true
  List.replicate 4 .ingest ++ List.replicate 4 book ++ List.replicate 4 (.analytics false) ++
    List.replicate 3 .ingest ++ List.replicate 24 book ++ List.replicate 9 (.analytics true)

theorem finished_eq_consume_small :
    ∃ s, smallSystem.run smallSystem.start finishingRun = some s ∧ Finished s ∧
      s.feed.down.manager =
        (consume builderHandler truncatedBuffer { down := {} }).1.down.manager := by
  have hrun : (smallSystem.run smallSystem.start finishingRun).any
      (fun s => decide (Finished s)) = true := by decide +kernel
  obtain ⟨s, hs, hfin⟩ := (Option.any_eq_true _ _).mp hrun
  have hfinished := of_decide_eq_true hfin
  refine ⟨s, hs, hfinished, ?_⟩
  exact (finished_eq_consume smallConfig_roundsTo smallConfig_roundsTo ⟨finishingRun, hs⟩
    hfinished).2.1

end Pipeline

end Mdfh
