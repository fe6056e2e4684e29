import InodeFS.Library.Wire

/-! `marshall`, `unmarshall`, and the templates of `rpcc` and `rpcs` over them. How single
words and strings are written is a parameter. -/
namespace InodeFS.Rpc

open Bytes Wire Std

variable {α β ρ η : Type}

structure ReqHeader where
  xid : Int32
  proc : Int32
  cltNonce : UInt32
  srvNonce : UInt32
  xidRep : Int32

structure ReplyHeader where
  xid : Int32
  ret : Int32

/-- `static_max<sizeof(req_header), sizeof(reply_header)>::value + sizeof(rpc_sz_t)`. -/
def rpcHeaderSz : Nat := Nat.max 20 8 + 4

def defaultRpcSz : Nat := 1024

/-- The memory of the buffer, its size and the head position, two `int`s. What was not
written yet is arbitrary. -/
structure Marshall where
  buf : Nat → Byte
  capa : Nat
  ind : Nat
  head : ind ≤ capa
  int : capa < 2 ^ 31

def marshall (memory : Nat → Byte) : Marshall where
  buf := memory
  capa := defaultRpcSz
  ind := rpcHeaderSz
  head := by decide
  int := by decide

/-- The memory with `bs` from `i` on. -/
def splice (buf : Nat → Byte) (i : Nat) (bs : List Byte) (j : Nat) : Byte :=
  if i ≤ j ∧ j < i + bs.length then bs.getD (j - i) 0 else buf j

namespace Marshall

def takeBuf (m : Marshall) : List Byte := (List.range m.ind).map m.buf

def getContent (m : Marshall) : List Byte :=
  (List.range (m.ind - rpcHeaderSz)).map fun j => m.buf (rpcHeaderSz + j)

/-- The first four bytes are left for the channel. The buffer need not grow for a header. -/
def packHeader (m : Marshall) (H : Format η) (h : η) : Marshall :=
  { m with buf := splice m.buf 4 (H.bytes h) }

/-- `m'` holds what `m` holds and then `bs`. The buffer may have grown, and nothing is said
about the memory behind these bytes. -/
structure Appends (m : Marshall) (bs : List Byte) (m' : Marshall) : Prop where
  ind : m'.ind = m.ind + bs.length
  buf : ∀ j < m'.ind, m'.buf j = splice m.buf m.ind bs j

end Marshall

/-- `operator<<` and `operator>>` of a type. Nothing comes of `operator<<` where an `int` of
the buffer would overflow or the memory runs out. `operator>>` may keep some of the old value. -/
structure Operators (α : Type) extends Format α where
  put : Marshall → α → Option Marshall
  get : Reader → α → α × Reader
  onto : α → α → α
  put_appends : ∀ {m a m'}, put m a = some m' → m.Appends (bytes a) m'
  get_bytes : ∀ {u a tail} old, u.ok = true → Fits a → u.rest = bytes a ++ tail →
    get u old = (onto old a, u.skip (bytes a).length)
  bytes_ne_nil : ∀ a, bytes a ≠ []

/-- `unmarshall(char *b, int sz)`. -/
def unmarshall (b : List Byte) : Reader := { buf := b, ind := 0, ok := true }

/-- `take_content`, whose sizes are `int`s. The bytes in front of the content are not written. -/
def takeContent (memory : Nat → Byte) (s : List Byte) : Option Reader :=
  if s.length + rpcHeaderSz < 2 ^ 31 then
    some { buf := (List.range rpcHeaderSz).map memory ++ s, ind := rpcHeaderSz, ok := true }
  else none

def unpackHeader (H : Format η) (u : Reader) : η × Reader :=
  ((H.read { u with ind := 4 }).1, { (H.read { u with ind := 4 }).2 with ind := rpcHeaderSz })

/-- The casts between `int` and `unsigned int`. -/
def nonce : Int32 ≃ UInt32 where
  toFun := Int32.toUInt32
  invFun := UInt32.toInt32
  left_inv := Int32.toInt32_toUInt32
  right_inv := UInt32.toUInt32_toInt32

def reqHeader (pack : Format Int32) : Format ReqHeader :=
  (pack.prod (pack.prod ((pack.rename nonce).prod ((pack.rename nonce).prod pack)))).rename
    { toFun := fun p => ⟨p.1, p.2.1, p.2.2.1, p.2.2.2.1, p.2.2.2.2⟩
      invFun := fun h => (h.xid, h.proc, h.cltNonce, h.srvNonce, h.xidRep)
      left_inv := fun _ => rfl
      right_inv := fun _ => rfl }

def replyHeader (pack : Format Int32) : Format ReplyHeader :=
  (pack.prod pack).rename
    { toFun := fun p => ⟨p.1, p.2⟩
      invFun := fun h => (h.xid, h.ret)
      left_inv := fun _ => rfl
      right_inv := fun _ => rfl }

def packReqHeader (pack : Format Int32) (m : Marshall) (h : ReqHeader) : Marshall :=
  m.packHeader (reqHeader pack) h

def packReplyHeader (pack : Format Int32) (m : Marshall) (h : ReplyHeader) : Marshall :=
  m.packHeader (replyHeader pack) h

def unpackReqHeader (pack : Format Int32) (u : Reader) : ReqHeader × Reader := unpackHeader (reqHeader pack) u

def unpackReplyHeader (pack : Format Int32) (u : Reader) : ReplyHeader × Reader :=
  unpackHeader (replyHeader pack) u

/-- One value after the other: `m << a << b`. -/
def putPair (A : Operators α) (B : Operators β) (m : Marshall) (p : α × β) : Option Marshall := do
  B.put (← A.put m p.1) p.2

/-- `operator<<` of a vector. -/
def putVector (unsigned : Operators UInt32) (C : Operators α) (m : Marshall) (v : List α) : Option Marshall := do
  v.foldlM C.put (← unsigned.put m (UInt32.ofNat v.length))

/-- `operator>>` of a vector, which keeps the elements it has. -/
def getVector (unsigned : Format UInt32) (C : Format α) (u : Reader) (v : List α) : List α × Reader :=
  C.loop (fun v z => v ++ [z]) (unsigned.read u).1.toNat (unsigned.read u).2 v

def putMap {cmp : α → α → Ordering} [TransCmp cmp] (unsigned : Operators UInt32) (A : Operators α)
    (B : Operators β) (m : Marshall) (d : ExtTreeMap α β cmp) : Option Marshall := do
  d.toList.foldlM (putPair A B) (← unsigned.put m (UInt32.ofNat d.size))

/-- `operator>>` of a map, which clears it first. -/
def getMap {cmp : α → α → Ordering} [TransCmp cmp] (unsigned : Format UInt32) (A : Format α) (B : Format β)
    (u : Reader) (_ : ExtTreeMap α β cmp) : ExtTreeMap α β cmp × Reader :=
  (A.prod B).loop (fun d p => d.insert p.1 p.2) (unsigned.read u).1.toNat (unsigned.read u).2 ∅

def unmarshalArgsFailure : Int32 := -2

/-- The handler that `rpcs::reg` makes of a method; several arguments are one tuple. The
reply is none where the result could not be marshalled. -/
def handler {ε σ : Type} (args : Format α) (ret : Operators ρ) (meth : α → EStateM ε σ (Int32 × ρ)) (u : Reader)
    (m : Marshall) : EStateM ε σ (Int32 × Option Marshall) :=
  if (args.read u).2.okdone then do
    let answer ← meth (args.read u).1
    return (answer.1, ret.put m answer.2)
  else return (unmarshalArgsFailure, some m)

/-- What `rpcc::call_m` gives its caller. -/
inductive Answer (ρ : Type) where
  | failed (intret : Int32)
  | done (intret : Int32) (r : ρ)
  /-- `VERIFY(0)`. -/
  | abort

/-- `rpcc::call_m`, from the return value and the reply of `call1` on. `r` is what the
caller's variable held before. -/
def callM (ret : Operators ρ) (intret : Int32) (u : Reader) (r : ρ) : Answer ρ :=
  if intret < 0 then .failed intret
  else if (ret.get u r).2.okdone then .done intret (ret.get u r).1
  else .abort

/-- The channel puts the size of the message into its first four bytes. -/
structure Delivers (m : Marshall) (b : List Byte) : Prop where
  length : b.length = m.ind
  drop : b.drop 4 = m.takeBuf.drop 4

section Splice

variable {buf : Nat → Byte} {i j : Nat} {bs cs : List Byte}

theorem splice_of_lt (h : j < i) : splice buf i bs j = buf j := if_neg (by omega)

theorem splice_of_ge (h : i + bs.length ≤ j) : splice buf i bs j = buf j := if_neg (by omega)

theorem splice_add (h : j < bs.length) : splice buf i bs (i + j) = bs[j] := by
  rw [splice, if_pos (by omega), Nat.add_sub_cancel_left, List.getD_eq_getElem _ _ h]

/-- The bytes just written. -/
theorem map_splice (buf : Nat → Byte) (i : Nat) (bs : List Byte) :
    ((List.range bs.length).map fun j => splice buf i bs (i + j)) = bs := by
  refine List.ext_getElem (by simp) fun j hj hb => ?_
  rw [List.getElem_map, List.getElem_range, splice_add hb]

theorem splice_splice (buf : Nat → Byte) (i : Nat) (bs cs : List Byte) (j : Nat) :
    splice (splice buf i bs) (i + bs.length) cs j = splice buf i (bs ++ cs) j := by
  simp only [splice, List.length_append]
  by_cases hLow : j < i + bs.length
  · rw [if_neg (by omega)]
    by_cases hIn : i ≤ j
    · rw [if_pos (by omega), if_pos (by omega), List.getD_append _ _ _ _ (by omega)]
    · rw [if_neg (by omega), if_neg (by omega)]
  · by_cases hHigh : j < i + (bs.length + cs.length)
    · rw [if_pos (by omega), if_pos (by omega), List.getD_append_right _ _ _ _ (by omega)]
      congr 1
      omega
    · rw [if_neg (by omega), if_neg (by omega), if_neg (by omega)]

end Splice

namespace Marshall

variable {m m' m'' : Marshall} {bs cs : List Byte}

theorem Appends.refl (m : Marshall) : m.Appends [] m where
  ind := rfl
  buf _ hj := (splice_of_lt hj).symm

theorem Appends.trans (h : m.Appends bs m') (h' : m'.Appends cs m'') : m.Appends (bs ++ cs) m'' where
  ind := by rw [h'.ind, h.ind, List.length_append, Nat.add_assoc]
  buf j hj := by
    rw [h'.buf j hj, ← splice_splice, ← h.ind]
    by_cases hLow : j < m'.ind
    · rw [splice_of_lt hLow, splice_of_lt hLow, h.buf j hLow]
    · have hEnd := h'.ind
      simp only [splice]
      rw [if_pos (by omega), if_pos (by omega)]

/-- No more is written than an `int` counts. -/
theorem Appends.lt (h : m.Appends bs m') : m.ind + bs.length < 2 ^ 31 :=
  h.ind ▸ m'.head.trans_lt m'.int

theorem Appends.foldlM {f : Marshall → α → Option Marshall} (bytes : α → List Byte)
    (hPut : ∀ m a m', f m a = some m' → m.Appends (bytes a) m') {xs : List α}
    (h : xs.foldlM f m = some m') : m.Appends (xs.flatMap bytes) m' := by
  induction xs generalizing m with
  | nil =>
      cases h
      exact .refl _
  | cons x xs ih =>
      obtain ⟨m₁, hFirst, hRest⟩ := Option.bind_eq_some_iff.mp h
      exact (hPut m x m₁ hFirst).trans (ih hRest)

theorem Appends.content {memory : Nat → Byte} (h : (marshall memory).Appends bs m) : m.getContent = bs := by
  have hInd : m.ind = rpcHeaderSz + bs.length := h.ind
  rw [Marshall.getContent, hInd, Nat.add_sub_cancel_left]
  refine (List.map_congr_left fun j hj => ?_).trans (map_splice memory rpcHeaderSz bs)
  exact h.buf _ (by rw [hInd]; exact Nat.add_lt_add_left (List.mem_range.mp hj) _)

end Marshall

theorem putPair_appends {A : Operators α} {B : Operators β} {m m' : Marshall} {p : α × β}
    (h : putPair A B m p = some m') : m.Appends ((A.prod B.toFormat).bytes p) m' := by
  obtain ⟨m₁, hA, hB⟩ := Option.bind_eq_some_iff.mp h
  exact (A.put_appends hA).trans (B.put_appends hB)

/-- Several arguments. -/
def pair (A : Operators α) (B : Operators β) : Operators (α × β) where
  toFormat := A.prod B.toFormat
  put := putPair A B
  get u old := (((A.get u old.1).1, (B.get (A.get u old.1).2 old.2).1), (B.get (A.get u old.1).2 old.2).2)
  onto old p := (A.onto old.1 p.1, B.onto old.2 p.2)
  put_appends := putPair_appends
  get_bytes {u p tail} old hOk hFits hRest := by
    have hSplit := hRest.trans (List.append_assoc _ _ _)
    have hB := B.get_bytes (u := u.skip (A.bytes p.1).length) old.2 hOk hFits.2 (Reader.rest_skip hSplit)
    simp only [A.get_bytes old.1 hOk hFits.1 hSplit, hB, Reader.skip_skip, Format.prod, List.length_append]
  bytes_ne_nil p h := A.bytes_ne_nil p.1 (List.append_eq_nil_iff.mp h).1

/-- The vectors of a type. -/
def vector (unsigned : Operators UInt32) (C : Operators α) : Operators (List α) where
  toFormat := .counted unsigned.toFormat C.toFormat id [] (fun v z => v ++ [z]) fun v => by
    rw [List.foldl_append_eq_append, ← List.flatMap_def, List.flatMap_singleton']
    rfl
  put := putVector unsigned C
  get := getVector unsigned.toFormat C.toFormat
  onto old v := old ++ v
  put_appends {m v m'} h := by
    obtain ⟨m₁, hCount, hElements⟩ := Option.bind_eq_some_iff.mp h
    exact (unsigned.put_appends hCount).trans (.foldlM C.bytes (fun _ _ _ => C.put_appends) hElements)
  get_bytes {u v tail} old hOk hFits hRest := by
    obtain ⟨hLen, hCount, hElements⟩ := hFits
    have hPush : v.foldl (fun v z => v ++ [z]) old = old ++ v := by
      rw [List.foldl_append_eq_append, ← List.flatMap_def, List.flatMap_singleton']
    rw [← hPush]
    exact Format.loop_counted old hOk hLen hCount hElements hRest
  bytes_ne_nil v h := unsigned.bytes_ne_nil _ (List.append_eq_nil_iff.mp h).1

/-- The maps between two types. -/
def map (cmp : α → α → Ordering) [TransCmp cmp] [LawfulEqCmp cmp] (unsigned : Operators UInt32) (A : Operators α)
    (B : Operators β) : Operators (ExtTreeMap α β cmp) where
  toFormat := .counted unsigned.toFormat (A.prod B.toFormat) ExtTreeMap.toList ∅
    (fun d p => d.insert p.1 p.2) foldl_insert_toList
  put := putMap unsigned A B
  get := getMap unsigned.toFormat A.toFormat B.toFormat
  onto _ d := d
  put_appends {m d m'} h := by
    obtain ⟨m₁, hCount, hEntries⟩ := Option.bind_eq_some_iff.mp h
    rw [← ExtTreeMap.length_toList] at hCount
    exact (unsigned.put_appends hCount).trans
      (.foldlM (A.prod B.toFormat).bytes (fun _ _ _ => putPair_appends) hEntries)
  get_bytes {u d tail} _ hOk hFits hRest := by
    obtain ⟨hLen, hCount, hEntries⟩ := hFits
    have hLoop : (A.prod B.toFormat).loop (fun (d : ExtTreeMap α β cmp) p => d.insert p.1 p.2)
        (unsigned.read u).1.toNat (unsigned.read u).2 ∅ = _ :=
      Format.loop_counted ∅ hOk hLen hCount hEntries hRest
    rw [foldl_insert_toList] at hLoop
    exact hLoop
  bytes_ne_nil d h := unsigned.bytes_ne_nil _ (List.append_eq_nil_iff.mp h).1

theorem drop_map_range (f : Nat → Byte) (n k : Nat) :
    ((List.range n).map f).drop k = (List.range (n - k)).map fun j => f (k + j) := by
  refine List.ext_getElem (by simp) fun j hj hk => ?_
  simp

/-- The header in front, written into the bytes kept for it. -/
theorem takeBuf_packHeader {m : Marshall} {H : Format η} {h : η}
    (hLen : 4 + (H.bytes h).length ≤ rpcHeaderSz) (hInd : rpcHeaderSz ≤ m.ind) :
    (∃ tail, (m.packHeader H h).takeBuf.drop 4 = H.bytes h ++ tail) ∧
      (m.packHeader H h).takeBuf.drop rpcHeaderSz = m.getContent := by
  have hBuf : (m.packHeader H h).buf = splice m.buf 4 (H.bytes h) := rfl
  have hEnd : (m.packHeader H h).ind = m.ind := rfl
  have hRange : m.ind - 4 = (H.bytes h).length + (m.ind - 4 - (H.bytes h).length) := by omega
  constructor
  · rw [Marshall.takeBuf, drop_map_range, hEnd, hRange, List.range_add, List.map_append, hBuf, map_splice]
    exact ⟨_, rfl⟩
  · rw [Marshall.takeBuf, drop_map_range, hEnd, hBuf]
    refine List.map_congr_left fun j _ => ?_
    exact splice_of_ge (hLen.trans (Nat.le_add_right _ _))

/-- The header is read back, and reading goes on at the content. -/
theorem unpackHeader_delivered {H : Format η} {h : η} {m : Marshall} {b : List Byte} (hFits : H.Fits h)
    (hLen : 4 + (H.bytes h).length ≤ rpcHeaderSz) (hInd : rpcHeaderSz ≤ m.ind)
    (hDel : Delivers (m.packHeader H h) b) :
    unpackHeader H (unmarshall b) = (h, { buf := b, ind := rpcHeaderSz, ok := true }) ∧
      b.drop rpcHeaderSz = m.getContent := by
  obtain ⟨⟨tail, hHead⟩, hContent⟩ := takeBuf_packHeader hLen hInd
  constructor
  · have hRest : ({ buf := b, ind := 4, ok := true } : Reader).rest = H.bytes h ++ tail :=
      hDel.drop.trans hHead
    simp only [unpackHeader, unmarshall, H.read_bytes rfl hFits hRest, Reader.skip]
  · have hSplit : rpcHeaderSz = 4 + 20 := rfl
    rw [← hContent, hSplit, ← List.drop_drop, hDel.drop, List.drop_drop]

variable {ε σ : Type} {pack : Format Int32} {args : Format α} {ret : Operators ρ}
  {meth : α → EStateM ε σ (Int32 × ρ)} {u : Reader} {a : α} {m : Marshall} {s : σ}

/-- The method runs on its arguments if these are all that the content holds; if bytes are
missing or left over, it does not run. -/
theorem handler_content (hOk : u.ok = true) (hInd : u.ind ≤ u.buf.length) (hFits : args.Fits a)
    (hBytes : (∃ tail, u.rest = args.bytes a ++ tail) ∨ ∃ tail, args.bytes a = u.rest ++ tail) :
    handler args ret meth u m =
      if u.rest = args.bytes a then do
        let answer ← meth a
        return (answer.1, ret.put m answer.2)
      else return (unmarshalArgsFailure, some m) := by
  have hDone := args.okdone_read hOk hInd hFits rfl hBytes
  rw [handler]
  split_ifs with hRead hRest hRest
  · have hu : u.rest = args.bytes a ++ [] := hRest.trans (List.append_nil _).symm
    rw [args.read_bytes hOk hFits hu]
  · exact absurd (hDone.mp hRead) hRest
  · exact absurd (hDone.mpr hRest) hRead
  · rfl

theorem reqHeader_length (hPack : ∀ i, pack.Fits i ∧ (pack.bytes i).length = 4) (h : ReqHeader) :
    (reqHeader pack).Fits h ∧ ((reqHeader pack).bytes h).length = 20 := by
  simp [reqHeader, Format.prod, Format.rename, hPack]

theorem replyHeader_length (hPack : ∀ i, pack.Fits i ∧ (pack.bytes i).length = 4) (h : ReplyHeader) :
    (replyHeader pack).Fits h ∧ ((replyHeader pack).bytes h).length = 8 := by
  simp [replyHeader, Format.prod, Format.rename, hPack]

/-- The server reads the header the client wrote, and stands at the content. -/
theorem unpackReqHeader_delivered (hPack : ∀ i, pack.Fits i ∧ (pack.bytes i).length = 4) {h : ReqHeader}
    {b : List Byte} (hInd : rpcHeaderSz ≤ m.ind) (hReq : Delivers (packReqHeader pack m h) b) :
    (unpackReqHeader pack (unmarshall b)).1 = h ∧ (unpackReqHeader pack (unmarshall b)).2.ok = true ∧
      (unpackReqHeader pack (unmarshall b)).2.ind ≤ (unpackReqHeader pack (unmarshall b)).2.buf.length ∧
      (unpackReqHeader pack (unmarshall b)).2.rest = m.getContent := by
  obtain ⟨hFits, hLen⟩ := reqHeader_length hPack h
  obtain ⟨hUnpack, hContent⟩ := unpackHeader_delivered hFits (by rw [hLen]; exact Nat.le_refl 24) hInd hReq
  have hLong : b.length = m.ind := hReq.length
  rw [unpackReqHeader, hUnpack]
  exact ⟨rfl, rfl, hInd.trans hLong.ge, hContent⟩

theorem callM_delivered (hPack : ∀ i, pack.Fits i ∧ (pack.bytes i).length = 4) {r : ρ} (hRet : ret.Fits r)
    {memory : Nat → Byte} {h : ReplyHeader} {b : List Byte} (hPut : ret.put (marshall memory) r = some m)
    (hRep : Delivers (packReplyHeader pack m h) b) (old : ρ) :
    (unpackReplyHeader pack (unmarshall b)).1 = h ∧
      callM ret h.ret (unpackReplyHeader pack (unmarshall b)).2 old =
        if h.ret < 0 then .failed h.ret else .done h.ret (ret.onto old r) := by
  have hAppends := ret.put_appends hPut
  have hInd : m.ind = rpcHeaderSz + (ret.bytes r).length := hAppends.ind
  obtain ⟨hFits, hLen⟩ := replyHeader_length hPack h
  obtain ⟨hUnpack, hContent⟩ := unpackHeader_delivered hFits (by rw [hLen]; decide)
    (hInd ▸ Nat.le_add_right _ _) hRep
  rw [hAppends.content] at hContent
  have hRest : ({ buf := b, ind := rpcHeaderSz, ok := true } : Reader).rest = ret.bytes r ++ [] :=
    hContent.trans (List.append_nil _).symm
  have hLong : b.length = rpcHeaderSz + (ret.bytes r).length := hRep.length.trans hInd
  rw [unpackReplyHeader, hUnpack, callM, ret.get_bytes old rfl hRet hRest]
  refine ⟨rfl, ?_⟩
  have hDone : (({ buf := b, ind := rpcHeaderSz, ok := true } : Reader).skip (ret.bytes r).length).okdone = true := by
    simp [Reader.okdone, Reader.skip, hLong]
  rw [if_pos hDone]

/-- A call over the wire is a call of the method: the server sees the header and the arguments
of the client, and the client's variable gets the result, unless the status is negative. -/
theorem remote_call (args : Operators α) (ret : Operators ρ) (meth : α → EStateM ε σ (Int32 × ρ))
    (hPack : ∀ i, pack.Fits i ∧ (pack.bytes i).length = 4) (hArgs : args.Fits a) {h : ReqHeader}
    {memory memory' : Nat → Byte} {b : List Byte} (hPut : args.put (marshall memory) a = some m)
    (hReq : Delivers (packReqHeader pack m h) b) :
    (unpackReqHeader pack (unmarshall b)).1 = h ∧
      (∀ e t, meth a s = .error e t →
        handler args.toFormat ret meth (unpackReqHeader pack (unmarshall b)).2 (marshall memory') s = .error e t) ∧
      ∀ st r t, meth a s = .ok (st, r) t → ret.Fits r →
        handler args.toFormat ret meth (unpackReqHeader pack (unmarshall b)).2 (marshall memory') s =
            .ok (st, ret.put (marshall memory') r) t ∧
          ∀ m', ret.put (marshall memory') r = some m' → ∀ xid b',
            Delivers (packReplyHeader pack m' ⟨xid, st⟩) b' → ∀ old,
              (unpackReplyHeader pack (unmarshall b')).1 = ⟨xid, st⟩ ∧
                callM ret st (unpackReplyHeader pack (unmarshall b')).2 old =
                  if st < 0 then .failed st else .done st (ret.onto old r) := by
  have hAppends := args.put_appends hPut
  have hInd : m.ind = rpcHeaderSz + (args.bytes a).length := hAppends.ind
  obtain ⟨hHeader, hOk, hIn, hRest⟩ := unpackReqHeader_delivered hPack (hInd ▸ Nat.le_add_right _ _) hReq
  rw [hAppends.content] at hRest
  have hHandler : handler args.toFormat ret meth (unpackReqHeader pack (unmarshall b)).2 (marshall memory') = _ :=
    handler_content hOk hIn hArgs (Or.inl ⟨[], hRest.trans (List.append_nil _).symm⟩)
  rw [if_pos hRest] at hHandler
  refine ⟨hHeader, fun e t hMeth => ?_, fun st r t hMeth hFits => ⟨?_, fun m' hReply xid b' hRep old => ?_⟩⟩
  · rw [hHandler]
    simp only [bind, EStateM.bind, hMeth]
  · rw [hHandler]
    simp only [bind, EStateM.bind, hMeth, pure, EStateM.pure]
  · exact callM_delivered hPack hFits hReply hRep old

section Words

/-- Words with the high byte first. -/
def word : Format UInt32 :=
  .fixed 4 (fun v => (le32 v).reverse) (fun bs => u32At bs.reverse 0) (fun _ => rfl) fun v => by
    rw [List.reverse_reverse, ← List.append_nil (le32 v), u32At_le32]

def int : Format Int32 := word.rename nonce.symm

theorem int_bytes (i : Int32) : int.Fits i ∧ (int.bytes i).length = 4 := ⟨trivial, rfl⟩

/-- A buffer that is too small for `n` more bytes grows to twice its size, or further. -/
def Marshall.grown (m : Marshall) (n : Nat) : Nat :=
  if m.ind + n ≤ m.capa then m.capa else if n < m.capa then 2 * m.capa else m.capa + n

theorem Marshall.le_grown (m : Marshall) (n : Nat) : m.ind + n ≤ m.grown n := by
  have hHead := m.head
  rw [grown]
  split_ifs <;> omega

def Marshall.rawbytes (m : Marshall) (bs : List Byte) : Option Marshall :=
  if h : m.grown bs.length < 2 ^ 31 then
    some { buf := splice m.buf m.ind bs, capa := m.grown bs.length, ind := m.ind + bs.length,
           head := m.le_grown bs.length, int := h }
  else none

def unsignedInt : Operators UInt32 where
  toFormat := word
  put m v := m.rawbytes (word.bytes v)
  get u _ := word.read u
  onto _ v := v
  put_appends {m v m'} h := by
    rw [Marshall.rawbytes] at h
    split at h
    · cases h
      exact ⟨rfl, fun _ _ => rfl⟩
    · cases h
  get_bytes _ hOk hFits hRest := word.read_bytes hOk hFits hRest
  bytes_ne_nil v h := by cases congrArg List.length h

end Words

/-- A method of two words that gives back both, for a caller whose vector holds one already. -/
theorem remote_call_two : ∃ m b m', (pair unsignedInt unsignedInt).put (marshall fun _ => 0) (7, 8) = some m ∧
    Delivers (packReqHeader int m ⟨5, 1, 2, 3, 0⟩) b ∧
      (unpackReqHeader int (unmarshall b)).1 = ⟨5, 1, 2, 3, 0⟩ ∧
      handler (word.prod word) (vector unsignedInt unsignedInt)
        (fun a => (pure (0, [a.1, a.2]) : EStateM Unit Unit (Int32 × List UInt32)))
        (unpackReqHeader int (unmarshall b)).2 (marshall fun _ => 0) () = .ok (0, some m') () ∧
      ∀ b', Delivers (packReplyHeader int m' ⟨5, 0⟩) b' →
        callM (vector unsignedInt unsignedInt) 0 (unpackReplyHeader int (unmarshall b')).2 [6] =
          .done 0 [6, 7, 8] := by
  obtain ⟨m, hPut⟩ : ∃ m, (pair unsignedInt unsignedInt).put (marshall fun _ => 0) (7, 8) = some m := ⟨_, rfl⟩
  obtain ⟨m', hReply⟩ : ∃ m', (vector unsignedInt unsignedInt).put (marshall fun _ => 0) [7, 8] = some m' :=
    ⟨_, rfl⟩
  have hReq : Delivers (packReqHeader int m ⟨5, 1, 2, 3, 0⟩) (packReqHeader int m ⟨5, 1, 2, 3, 0⟩).takeBuf :=
    ⟨by simp [Marshall.takeBuf], rfl⟩
  obtain ⟨hHeader, -, hCall⟩ := remote_call (pair unsignedInt unsignedInt) (vector unsignedInt unsignedInt)
    (fun a => (pure (0, [a.1, a.2]) : EStateM Unit Unit _)) int_bytes ⟨trivial, trivial⟩ hPut hReq
  obtain ⟨hServer, hClient⟩ := hCall 0 [7, 8] () rfl ⟨by decide, trivial, fun _ _ => trivial⟩
  refine ⟨m, _, m', hPut, hReq, hHeader, hServer.trans (by rw [hReply]), fun b' hRep => ?_⟩
  exact (hClient m' hReply 5 b' hRep [6]).2

/-- Bytes that are missing or left over, as for too few or too many arguments: the method does
not run, and the handler answers with the failure. -/
theorem mangled_call (hPack : ∀ i, pack.Fits i ∧ (pack.bytes i).length = 4) (hArgs : args.Fits a)
    (hInd : rpcHeaderSz ≤ m.ind) (hBytes : (∃ tail, m.getContent = args.bytes a ++ tail) ∨
      ∃ tail, args.bytes a = m.getContent ++ tail) (hNot : m.getContent ≠ args.bytes a)
    {h : ReqHeader} {memory : Nat → Byte} {b : List Byte} (hReq : Delivers (packReqHeader pack m h) b) :
    handler args ret meth (unpackReqHeader pack (unmarshall b)).2 (marshall memory) s =
      .ok (unmarshalArgsFailure, some (marshall memory)) s := by
  obtain ⟨-, hOk, hLong, hRest⟩ := unpackReqHeader_delivered hPack hInd hReq
  have hHandler : handler args ret meth (unpackReqHeader pack (unmarshall b)).2 (marshall memory) = _ :=
    handler_content hOk hLong hArgs (hRest ▸ hBytes)
  rw [if_neg (hRest ▸ hNot)] at hHandler
  exact congrFun hHandler s

/-- Two words for a method of one. -/
theorem mangled_call_two : ∃ b m, putPair unsignedInt unsignedInt (marshall fun _ => 0) (7, 8) = some m ∧
    Delivers (packReqHeader int m ⟨5, 1, 2, 3, 0⟩) b ∧
      handler word unsignedInt (fun a => (pure (0, a + 1) : EStateM Unit Unit (Int32 × UInt32)))
        (unpackReqHeader int (unmarshall b)).2 (marshall fun _ => 0) () =
          .ok (unmarshalArgsFailure, some (marshall fun _ => 0)) () := by
  obtain ⟨m, hPut⟩ : ∃ m, putPair unsignedInt unsignedInt (marshall fun _ => 0) (7, 8) = some m := ⟨_, rfl⟩
  have hAppends := putPair_appends hPut
  have hContent : m.getContent = word.bytes 7 ++ word.bytes 8 := hAppends.content
  have hInd : m.ind = rpcHeaderSz + 8 := hAppends.ind
  have hReq : Delivers (packReqHeader int m ⟨5, 1, 2, 3, 0⟩) (packReqHeader int m ⟨5, 1, 2, 3, 0⟩).takeBuf :=
    ⟨by simp [Marshall.takeBuf], rfl⟩
  have hNot : m.getContent ≠ word.bytes 7 := fun he => by
    cases congrArg List.length (hContent.symm.trans he)
  exact ⟨_, m, hPut, hReq, mangled_call int_bytes trivial (hInd ▸ Nat.le_add_right _ _)
    (Or.inl ⟨_, hContent⟩) hNot hReq⟩

/-- What was marshalled fits a string that is unmarshalled. -/
theorem exists_takeContent {memory : Nat → Byte} {bs : List Byte} (h : (marshall memory).Appends bs m)
    (memory' : Nat → Byte) : ∃ u, takeContent memory' m.getContent = some u ∧ u.ok = true ∧
      u.rest = bs ∧ (u.skip bs.length).okdone = true := by
  have hLen : rpcHeaderSz + bs.length < 2 ^ 31 := h.lt
  rw [h.content, takeContent, if_pos (by omega)]
  refine ⟨_, rfl, rfl, ?_, ?_⟩
  · rw [Reader.rest, List.drop_left' (by simp)]
  · simp [Reader.okdone, Reader.skip]

/-- A value is read back from the string that it was put into, and nothing is left of the string. -/
theorem Operators.round_trip {A : Operators α} {memory : Nat → Byte} (hPut : A.put (marshall memory) a = some m)
    (hFits : A.Fits a) (memory' : Nat → Byte) : ∃ u, takeContent memory' m.getContent = some u ∧
      ∀ old, (A.get u old).1 = A.onto old a ∧ (A.get u old).2.okdone = true := by
  obtain ⟨u, hTake, hOk, hRest, hDone⟩ := exists_takeContent (A.put_appends hPut) memory'
  refine ⟨u, hTake, fun old => ?_⟩
  rw [A.get_bytes old hOk hFits (hRest.trans (List.append_nil _).symm)]
  exact ⟨rfl, hDone⟩

theorem length_le_flatMap {bytes : α → List Byte} {xs : List α} (h : ∀ x ∈ xs, bytes x ≠ []) :
    xs.length ≤ (xs.flatMap bytes).length := by
  induction xs with
  | nil => exact Nat.zero_le _
  | cons x xs ih =>
      have hFirst := List.length_pos_iff.mpr (h x List.mem_cons_self)
      have hRest := ih fun y hy => h y (List.mem_cons_of_mem x hy)
      rw [List.flatMap_cons, List.length_cons, List.length_append]
      omega

variable {unsigned : Operators UInt32} {A : Operators α} {B : Operators β}

/-- Vectors and maps come back as they were put, a vector behind the elements that were there,
a map in place of them, and nothing of the content is left. -/
theorem containers_round_trip (hWord : ∀ n, unsigned.Fits n) (memory memory' : Nat → Byte) :
    (∀ (v : List α) (m : Marshall), putVector unsigned A (marshall memory) v = some m → (∀ x ∈ v, A.Fits x) →
      ∃ u, takeContent memory' m.getContent = some u ∧ ∀ old,
        (getVector unsigned.toFormat A.toFormat u old).1 = old ++ v ∧
          (getVector unsigned.toFormat A.toFormat u old).2.okdone = true) ∧
    ∀ (cmp : α → α → Ordering) [TransCmp cmp] [LawfulEqCmp cmp] (d : ExtTreeMap α β cmp) (m : Marshall),
      putMap unsigned A B (marshall memory) d = some m → (∀ p ∈ d.toList, A.Fits p.1 ∧ B.Fits p.2) →
      ∃ u, takeContent memory' m.getContent = some u ∧ ∀ old : ExtTreeMap α β cmp,
        (getMap unsigned.toFormat A.toFormat B.toFormat u old).1 = d ∧
          (getMap unsigned.toFormat A.toFormat B.toFormat u old).2.okdone = true := by
  constructor
  · intro v m hPut hFits
    -- every element takes a byte, so that an `int` counts them
    have hAppends := (vector unsigned A).put_appends hPut
    have hBytes : (vector unsigned A).bytes v = unsigned.bytes _ ++ v.flatMap A.bytes := rfl
    have hShort := hAppends.lt
    have hCount : v.length ≤ (v.flatMap A.bytes).length := length_le_flatMap fun x _ => A.bytes_ne_nil x
    rw [hBytes, List.length_append] at hShort
    have hLen : v.length < 2 ^ 32 := by omega
    exact (vector unsigned A).round_trip hPut ⟨hLen, hWord _, hFits⟩ memory'
  · intro cmp _ _ d m hPut hFits
    have hAppends := (map cmp unsigned A B).put_appends hPut
    have hBytes : (map cmp unsigned A B).bytes d =
        unsigned.bytes _ ++ d.toList.flatMap (A.prod B.toFormat).bytes := rfl
    have hShort := hAppends.lt
    have hCount : d.toList.length ≤ (d.toList.flatMap (A.prod B.toFormat).bytes).length :=
      length_le_flatMap fun p _ hNil => A.bytes_ne_nil p.1 (List.append_eq_nil_iff.mp hNil).1
    rw [hBytes, List.length_append] at hShort
    have hLen : d.toList.length < 2 ^ 32 := by omega
    exact (map cmp unsigned A B).round_trip hPut ⟨hLen, hWord _, hFits⟩ memory'

/-- Two words behind a third. -/
theorem containers_round_trip_words : ∃ m u,
    putVector unsignedInt unsignedInt (marshall fun _ => 1) [7, 8] = some m ∧
      takeContent (fun _ => 0) m.getContent = some u ∧ (getVector word word u [6]).1 = [6, 7, 8] := by
  obtain ⟨m, hPut⟩ : ∃ m, putVector unsignedInt unsignedInt (marshall fun _ => 1) [7, 8] = some m := ⟨_, rfl⟩
  have hWord : ∀ n, unsignedInt.Fits n := fun _ => trivial
  have hBoth := containers_round_trip (A := unsignedInt) (B := unsignedInt) hWord (fun _ => 1) (fun _ => 0)
  obtain ⟨u, hTake, hGet⟩ := hBoth.1 [7, 8] m hPut fun _ _ => trivial
  exact ⟨m, u, hPut, hTake, (hGet [6]).1⟩

end InodeFS.Rpc
