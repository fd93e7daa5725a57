import Mdfh.Serialization

/-!
# The codec round trip

Every encoder writes one contiguous string, the end-to-end concatenation of its
fields, and every decoder reads the fields of that string back.

## Main results

* `encodeFrame_eq` — the bytes of a frame are its header and body fields in order.
* `decodeHeader_bytes`, `decodeBody_bytes` — decoding undoes encoding.
* `wire_loadLe` — a load returns the scalar whose bytes it reads.
-/

namespace Mdfh

open Library.LittleEndian

theorem storeLoop_eq (dst : List UInt8) (p n : Nat) (u : UInt64) :
    storeLoop dst p n u = overwrite dst p (bytes n u.toNat) := by
  induction n generalizing dst p u with
  | zero => rfl
  | succ n ih =>
    have hbyte : (u &&& 0xFF).toUInt8 = UInt8.ofNat u.toNat := by
      have hmask : u.toNat &&& 255 = u.toNat % 256 := Nat.and_two_pow_sub_one_eq_mod u.toNat 8
      apply UInt8.toNat_inj.mp
      rw [UInt64.toNat_toUInt8, UInt64.toNat_and, UInt8.toNat_ofNat',
        show (0xFF : UInt64).toNat = 255 from rfl, hmask]
      omega
    have hshift : (u >>> 8).toNat = u.toNat / 256 := by
      simp [Nat.shiftRight_eq_div_pow]
    rw [storeLoop, ih, hbyte, hshift]
    rfl

/-- The bytes of a scalar on the wire. -/
def wire {T : Type} [Scalar T] (v : T) : List UInt8 := bytes (size T) (Scalar.toU v).toNat

section
variable {T : Type} [Scalar T]

@[simp] theorem length_wire (v : T) : (wire v).length = size T := length_bytes _ _

def Cursor.write (c : Cursor) (bs : List UInt8) : Cursor :=
  ⟨overwrite c.buf c.pos bs, c.pos + bs.length⟩

@[simp] theorem Cursor.write_nil (c : Cursor) : c.write [] = c := rfl

@[simp] theorem Cursor.write_write (c : Cursor) (as bs : List UInt8) :
    (c.write as).write bs = c.write (as ++ bs) := by
  simp [Cursor.write, overwrite_overwrite, Nat.add_assoc]

@[simp] theorem Cursor.storeLe_eq (c : Cursor) (v : T) : c.storeLe v = c.write (wire v) := by
  simp [Cursor.storeLe, Cursor.write, storeLoop_eq, wire]

theorem loadLoop_toNat (src : List UInt8) (off i : Nat) (h : off + i ≤ src.length) (hi : i ≤ 8) :
    (loadLoop src off i h).toNat = value ((src.drop off).take i) := by
  induction i with
  | zero => simp [loadLoop, value]
  | succ i ih =>
    have hlt : off + i < src.length := by omega
    have hprev := ih (by omega) (by omega)
    have hbound : value ((src.drop off).take i) < 2 ^ (8 * i) := by
      have := value_lt ((src.drop off).take i)
      rw [List.length_take_of_le (by simp; omega)] at this
      rwa [pow_mul]
    have htake : (src.drop off).take (i + 1) = (src.drop off).take i ++ [src[off + i]] := by
      rw [List.take_add_one]
      simp [hlt]
    have hlen : ((src.drop off).take i).length = i := by simp; omega
    have hshift : (src[off + i].toUInt64 <<< UInt64.ofNat (8 * i)).toNat =
        2 ^ (8 * i) * src[off + i].toNat := by
      have hb := src[off + i].toNat_lt
      have h64 : 8 * i % 2 ^ 64 % 64 = 8 * i := by omega
      have hfit : src[off + i].toNat * 2 ^ (8 * i) < 2 ^ 64 := by
        calc src[off + i].toNat * 2 ^ (8 * i) < 2 ^ 8 * 2 ^ (8 * i) :=
              Nat.mul_lt_mul_of_pos_right hb (by positivity)
          _ = 2 ^ (8 + 8 * i) := by rw [pow_add]
          _ ≤ 2 ^ 64 := Nat.pow_le_pow_right (by decide) (by omega)
      simp only [UInt64.toNat_shiftLeft, UInt8.toNat_toUInt64, UInt64.toNat_ofNat', h64,
        Nat.shiftLeft_eq, Nat.mod_eq_of_lt hfit]
      ring
    rw [loadLoop, htake, value_append, hlen]
    simp only [UInt64.toNat_or, List.get_eq_getElem, hprev, hshift]
    rw [Nat.or_comm, ← Nat.two_pow_add_eq_or_of_lt hbound]
    simp [value, pow_mul]
    ring

/-- A load returns the scalar whose bytes stand at its offset. -/
theorem loadLe_of_drop {src rest : List UInt8} {off : Nat} {v : T}
    (h : off + size T ≤ src.length) (hsrc : src.drop off = wire v ++ rest) :
    loadLe T src off h = v := by
  have hv : value (wire v) = (Scalar.toU v).toNat := value_bytes_of_lt (Scalar.toU_lt v)
  have hload : loadLoop src off (size T) h = Scalar.toU v := by
    apply UInt64.toNat_inj.mp
    rw [loadLoop_toNat src off _ h Scalar.size_le, hsrc, List.take_left' (length_wire v), hv]
  rw [loadLe, hload, Scalar.ofU_toU]

/-- The bytes at the offset of a load are those of the scalar it returns. -/
theorem wire_loadLe {src : List UInt8} {off : Nat} (h : off + size T ≤ src.length) :
    wire (loadLe T src off h) = (src.drop off).take (size T) := by
  have hnat := loadLoop_toNat src off _ h (Scalar.size_le (T := T))
  have hlen : ((src.drop off).take (size T)).length = size T := by simp; omega
  have hlt : (loadLoop src off (size T) h).toNat < 256 ^ size T := by
    have := value_lt ((src.drop off).take (size T))
    rwa [hlen, ← hnat] at this
  rw [wire, loadLe, Scalar.toU_ofU _ hlt, hnat]
  simpa [hlen] using bytes_value ((src.drop off).take (size T))

end

/-! ## The layout of a frame -/

def headerBytes (type : MsgType) (version : UInt8) (bodySize : UInt16) (seq : Sequence)
    (ts : TimestampNs) : List UInt8 :=
  wire type.toByte ++ (wire version ++ (wire bodySize ++ (wire seq ++ wire ts)))

def levelBytes (lvl : SnapshotLevel) : List UInt8 := wire lvl.price ++ wire lvl.quantity

def bodyBytes : Body → List UInt8
  | .addOrder m =>
    wire m.symbol ++ (wire m.orderId ++ (wire m.side ++ (wire m.price ++ wire m.quantity)))
  | .cancelOrder m => wire m.symbol ++ wire m.orderId
  | .modifyOrder m =>
    wire m.symbol ++ (wire m.orderId ++ (wire m.newPrice ++ wire m.newQuantity))
  | .trade m =>
    wire m.symbol ++ (wire m.restingOrderId ++ (wire m.price ++ (wire m.quantity ++
      wire m.aggressorSide)))
  | .bookSnapshot m =>
    wire m.symbol ++ (wire m.numBidLevels ++ (wire m.numAskLevels ++ (wire (0 : UInt16) ++
      (m.bids.val.flatMap levelBytes ++ m.asks.val.flatMap levelBytes))))
  | .heartbeat => []

theorem encodeLevels_eq (p : Cursor) (ls : List SnapshotLevel) :
    encodeLevels p ls = p.write (ls.flatMap levelBytes) := by
  induction ls generalizing p with
  | nil => rfl
  | cons l ls ih => simp [encodeLevels, levelBytes] at ih ⊢; simp [ih]

theorem encodeBody_eq (p : Cursor) (body : Body) : encodeBody p body = p.write (bodyBytes body) := by
  cases body <;> simp [encodeBody, bodyBytes, encodeLevels_eq]

theorem length_levels (ls : SnapshotLevels) : (ls.val.flatMap levelBytes).length = 60 := by
  have hlevel (l : SnapshotLevel) : (levelBytes l).length = 12 := by simp [levelBytes, size]
  simp [List.length_flatMap, hlevel, ls.property, kMaxSnapshotLevels]

@[simp] theorem length_headerBytes (type : MsgType) (version : UInt8) (bodySize : UInt16)
    (seq : Sequence) (ts : TimestampNs) :
    (headerBytes type version bodySize seq ts).length = kHeaderWireSize := by
  simp [headerBytes, size]

@[simp] theorem length_bodyBytes (body : Body) :
    (bodyBytes body).length = bodySizeFor (msgTypeOf body) := by
  cases body with
  | bookSnapshot m =>
    simp only [bodyBytes, List.length_append, length_wire, length_levels]
    rfl
  | _ => simp [bodyBytes, bodySizeFor, msgTypeOf, size]

theorem encodeHeader_eq (p : Cursor) (type : MsgType) (seq : Sequence) (ts : TimestampNs) :
    encodeHeader p type seq ts =
      p.write (headerBytes type kProtocolVersion (UInt16.ofNat (bodySizeFor type)) seq ts) := by
  simp [encodeHeader, headerBytes]

/-- The bytes of a frame: the header fields and the body fields, end to end. -/
def frameBytes (seq : Sequence) (ts : TimestampNs) (body : Body) : List UInt8 :=
  let type := msgTypeOf body
  headerBytes type kProtocolVersion (UInt16.ofNat (bodySizeFor type)) seq ts ++ bodyBytes body

@[simp] theorem length_frameBytes (seq : Sequence) (ts : TimestampNs) (body : Body) :
    (frameBytes seq ts body).length = kHeaderWireSize + bodySizeFor (msgTypeOf body) := by
  simp [frameBytes]

theorem encodeMessage_eq {out : List UInt8} (seq : Sequence) (ts : TimestampNs) (body : Body)
    (h : kHeaderWireSize + bodySizeFor (msgTypeOf body) ≤ out.length) :
    encodeMessage out seq ts body =
      (kHeaderWireSize + bodySizeFor (msgTypeOf body),
        frameBytes seq ts body ++ out.drop (kHeaderWireSize + bodySizeFor (msgTypeOf body))) := by
  have hwrite : (encodeBody (encodeHeader ⟨out, 0⟩ (msgTypeOf body) seq ts) body).buf =
      overwrite out 0 (frameBytes seq ts body) := by
    rw [encodeHeader_eq, encodeBody_eq, Cursor.write_write]
    simp only [Cursor.write, frameBytes]
  have hfit : 0 + (frameBytes seq ts body).length ≤ out.length := by simpa using h
  simp only [encodeMessage, if_neg (Nat.not_lt.mpr h), hwrite, overwrite_eq hfit]
  simp

theorem encodeFrame_eq (seq : Sequence) (ts : TimestampNs) (body : Body) :
    encodeFrame seq ts body = frameBytes seq ts body := by
  have hfit : kHeaderWireSize + bodySizeFor (msgTypeOf body) ≤
      (List.replicate kMaxMessageSize (0 : UInt8)).length := by
    have := bodySizeFor_le (msgTypeOf body)
    simp only [List.length_replicate, kMaxMessageSize]
    omega
  simp only [encodeFrame, encodeMessage_eq seq ts body hfit]
  exact List.take_left' (length_frameBytes seq ts body)

/-! ## Decoding what was encoded -/

/-- Behind a scalar stands what it was put in front of. -/
theorem drop_next {T : Type} [Scalar T] {b rest : List UInt8} {off : Nat} {v : T}
    (h : b.drop off = wire v ++ rest) : b.drop (off + size T) = rest := by
  rw [← List.drop_drop, h, List.drop_left' (length_wire v)]

/-- The same for the scalar at the end. -/
theorem drop_last {T T' : Type} [Scalar T] [Scalar T'] {b : List UInt8} {off : Nat} {v : T} {v' : T'}
    (h : b.drop off = wire v ++ wire v') : b.drop (off + size T) = wire v' ++ [] := by
  rw [drop_next h, List.append_nil]

theorem decodeHeader_bytes (type : MsgType) (version : UInt8) (bodySize : UInt16)
    (seq : Sequence) (ts : TimestampNs) :
    decodeHeader (headerBytes type version bodySize seq ts) =
      some ⟨type, version, bodySize, seq, ts⟩ := by
  have hlen := length_headerBytes type version bodySize seq ts
  have htype : (headerBytes type version bodySize seq ts).drop 0 = wire type.toByte ++ _ := rfl
  have hversion : List.drop 1 _ = wire version ++ _ := drop_next htype
  have hsize : List.drop 2 _ = wire bodySize ++ _ := drop_next hversion
  have hseq : List.drop 4 _ = wire seq ++ _ := drop_next hsize
  have hts : List.drop 8 _ = wire ts ++ [] := drop_last hseq
  simp [decodeHeader, loadLe_of_drop _ htype, loadLe_of_drop _ hversion, loadLe_of_drop _ hsize,
    loadLe_of_drop _ hseq, loadLe_of_drop _ hts]

theorem decodeLevels_bytes (b rest : List UInt8) (ls : List SnapshotLevel) (n off : Nat)
    (h : off + 12 * n ≤ b.length) (hn : ls.length = n)
    (hb : b.drop off = ls.flatMap levelBytes ++ rest) : (decodeLevels b n off h).val = ls := by
  induction n generalizing ls off with
  | zero => simp [decodeLevels, List.length_eq_zero_iff.mp hn]
  | succ n ih =>
    obtain ⟨l, ls, rfl⟩ := List.exists_cons_of_length_eq_add_one hn
    have hprice : b.drop off = wire l.price ++ (wire l.quantity ++ (ls.flatMap levelBytes ++ rest)) := by
      simpa [levelBytes] using hb
    have hquantity : b.drop (off + 8) = wire l.quantity ++ _ := drop_next hprice
    have hrest : b.drop (off + 12) = ls.flatMap levelBytes ++ rest := drop_next hquantity
    simp [decodeLevels, loadLe_of_drop _ hprice, loadLe_of_drop _ hquantity,
      ih ls (off + 12) _ (by simpa using hn) hrest]

theorem fits {body : Body} {n : Nat} (h : bodySizeFor (msgTypeOf body) = n) :
    ¬(bodyBytes body).length < n := by
  rw [length_bodyBytes, h]
  exact lt_irrefl n

theorem decodeAddOrder_bytes (m : AddOrder) : decodeAddOrder (bodyBytes (.addOrder m)) = some m := by
  have hsymbol : (bodyBytes (.addOrder m)).drop 0 = wire m.symbol ++ _ := rfl
  have hid : List.drop 4 _ = wire m.orderId ++ _ := drop_next hsymbol
  have hside : List.drop 12 _ = wire m.side ++ _ := drop_next hid
  have hprice : List.drop 13 _ = wire m.price ++ _ := drop_next hside
  have hquantity : List.drop 21 _ = wire m.quantity ++ [] := drop_last hprice
  rw [decodeAddOrder, dif_neg (fits (by rfl))]
  simp only [loadLe_of_drop _ hsymbol, loadLe_of_drop _ hid, loadLe_of_drop _ hside,
    loadLe_of_drop _ hprice, loadLe_of_drop _ hquantity]

theorem decodeCancelOrder_bytes (m : CancelOrder) :
    decodeCancelOrder (bodyBytes (.cancelOrder m)) = some m := by
  have hsymbol : (bodyBytes (.cancelOrder m)).drop 0 = wire m.symbol ++ _ := rfl
  have hid : List.drop 4 _ = wire m.orderId ++ [] := drop_last hsymbol
  rw [decodeCancelOrder, dif_neg (fits (by rfl))]
  simp only [loadLe_of_drop _ hsymbol, loadLe_of_drop _ hid]

theorem decodeModifyOrder_bytes (m : ModifyOrder) :
    decodeModifyOrder (bodyBytes (.modifyOrder m)) = some m := by
  have hsymbol : (bodyBytes (.modifyOrder m)).drop 0 = wire m.symbol ++ _ := rfl
  have hid : List.drop 4 _ = wire m.orderId ++ _ := drop_next hsymbol
  have hprice : List.drop 12 _ = wire m.newPrice ++ _ := drop_next hid
  have hquantity : List.drop 20 _ = wire m.newQuantity ++ [] := drop_last hprice
  rw [decodeModifyOrder, dif_neg (fits (by rfl))]
  simp only [loadLe_of_drop _ hsymbol, loadLe_of_drop _ hid, loadLe_of_drop _ hprice,
    loadLe_of_drop _ hquantity]

theorem decodeTrade_bytes (m : Trade) : decodeTrade (bodyBytes (.trade m)) = some m := by
  have hsymbol : (bodyBytes (.trade m)).drop 0 = wire m.symbol ++ _ := rfl
  have hid : List.drop 4 _ = wire m.restingOrderId ++ _ := drop_next hsymbol
  have hprice : List.drop 12 _ = wire m.price ++ _ := drop_next hid
  have hquantity : List.drop 20 _ = wire m.quantity ++ _ := drop_next hprice
  have hside : List.drop 24 _ = wire m.aggressorSide ++ [] := drop_last hquantity
  rw [decodeTrade, dif_neg (fits (by rfl))]
  simp only [loadLe_of_drop _ hsymbol, loadLe_of_drop _ hid, loadLe_of_drop _ hprice,
    loadLe_of_drop _ hquantity, loadLe_of_drop _ hside]

theorem decodeBookSnapshot_bytes (m : BookSnapshot) :
    decodeBookSnapshot (bodyBytes (.bookSnapshot m)) = some m := by
  have hsymbol : (bodyBytes (.bookSnapshot m)).drop 0 = wire m.symbol ++ _ := rfl
  have hbidCount : List.drop 4 _ = wire m.numBidLevels ++ _ := drop_next hsymbol
  have haskCount : List.drop 5 _ = wire m.numAskLevels ++ _ := drop_next hbidCount
  have hreserved : List.drop 6 _ = wire (0 : UInt16) ++ _ := drop_next haskCount
  have hlevels : List.drop 8 _ = m.bids.val.flatMap levelBytes ++ m.asks.val.flatMap levelBytes :=
    drop_next hreserved
  have hbids (h) : decodeLevels (bodyBytes (.bookSnapshot m)) kMaxSnapshotLevels 8 h = m.bids :=
    Subtype.ext (decodeLevels_bytes _ _ _ _ _ h m.bids.property hlevels)
  have hasks (h) : decodeLevels (bodyBytes (.bookSnapshot m)) kMaxSnapshotLevels 68 h = m.asks :=
    Subtype.ext (decodeLevels_bytes _ [] _ _ _ h m.asks.property (by
      rw [show 68 = 8 + 60 from rfl, ← List.drop_drop, hlevels, List.append_nil]
      exact List.drop_left' (length_levels m.bids)))
  rw [decodeBookSnapshot, dif_neg (fits (by rfl))]
  simp only [loadLe_of_drop _ hsymbol, loadLe_of_drop _ hbidCount, loadLe_of_drop _ haskCount,
    hbids, hasks]

/-- Decoding an encoded body gives it back, for every type and every field value. -/
theorem decodeBody_bytes (body : Body) :
    decodeBody (msgTypeOf body) (bodyBytes body) = some body := by
  cases body with
  | addOrder m => simp [msgTypeOf, decodeBody, decodeAddOrder_bytes]
  | cancelOrder m => simp [msgTypeOf, decodeBody, decodeCancelOrder_bytes]
  | modifyOrder m => simp [msgTypeOf, decodeBody, decodeModifyOrder_bytes]
  | trade m => simp [msgTypeOf, decodeBody, decodeTrade_bytes]
  | bookSnapshot m => simp [msgTypeOf, decodeBody, decodeBookSnapshot_bytes]
  | heartbeat => rfl

end Mdfh
