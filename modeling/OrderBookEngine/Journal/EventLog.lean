/-
`EventLog.hpp` and `EventLog.cpp`: the append-only journal of commands. A file is an 8-byte header
and one 40-byte record for each command; integers are written in the byte order of the host, which
reads them back.
-/
import OrderBookEngine.Types
import OrderBookEngine.Lib.Bytes

namespace Obe

open Bytes

/-! ## Records -/

def EventLogWriter.kMagic : List UInt8 := [0x4F, 0x42, 0x45, 0x4C]
def EventLogWriter.kVersion : UInt32 := 1
def EventLogWriter.kRecordSize : Nat := 40

open EventLogWriter

/-- A zeroed record with the fields at their offsets: the trader at 4, then four words from 8 on. -/
def encode (host : ByteOrder) (c : Command) : List UInt8 :=
  [c.type.raw, c.orderType.raw, c.side.raw, 0] ++ host.write 4 c.trader.toNat ++ host.write 8 c.id.toNat ++
    host.write 8 c.price.toUInt64.toNat ++ host.write 8 c.quantity.toNat ++ host.write 8 c.triggerPrice.toUInt64.toNat

/-- The word of `n` bytes at an offset. -/
def wordAt (host : ByteOrder) (buf : List UInt8) (offset n : Nat) : Nat := host.read ((buf.drop offset).take n)

def decode (host : ByteOrder) (buf : List UInt8) : Command :=
  { type := ⟨buf.getD 0 0⟩
    orderType := ⟨buf.getD 1 0⟩
    side := ⟨buf.getD 2 0⟩
    trader := UInt32.ofNat (wordAt host buf 4 4)
    id := UInt64.ofNat (wordAt host buf 8 8)
    price := (UInt64.ofNat (wordAt host buf 16 8)).toInt64
    quantity := UInt64.ofNat (wordAt host buf 24 8)
    triggerPrice := (UInt64.ofNat (wordAt host buf 32 8)).toInt64 }

/-! ## The writer -/

/-- `out` is what the stream was given; `host` is the byte order of the machine. -/
structure EventLogWriter where
  host : ByteOrder
  out : List UInt8
  count : UInt64
  deriving DecidableEq, Repr

/-- The header. -/
def EventLogWriter.header (host : ByteOrder) : List UInt8 := kMagic ++ host.write 4 kVersion.toNat

/-- The constructor, on a path that can be opened. -/
def EventLogWriter.create (host : ByteOrder) : EventLogWriter := { host, out := header host, count := 0 }

def EventLogWriter.append (w : EventLogWriter) (cmd : Command) : EventLogWriter :=
  if cmd.type = .shutdown then w
  else { w with out := w.out ++ encode w.host cmd, count := w.count + 1 }

/-! ## The reader -/

/-- `file` is what the path names, `none` when it cannot be opened. A header that is cut short leaves
the stream failed, which is reported as a bad magic. -/
def readEventLog (host : ByteOrder) (path : String) (file : Option (List UInt8)) : Except String (List Command) :=
  match file with
  | none => .error ("read_event_log: cannot open " ++ path)
  | some bytes =>
    if bytes.length < 8 ∨ bytes.take 4 ≠ kMagic then .error ("read_event_log: bad magic in " ++ path)
    else if wordAt host bytes 4 4 ≠ kVersion.toNat then .error "read_event_log: unsupported version"
    else .ok ((records kRecordSize bytes.length (bytes.drop 8)).map (decode host))

/-! ## Round trips -/

/-- The commands that are events: not the shutdown sentinel. -/
def isEvent (c : Command) : Bool := c.type ≠ .shutdown

section RoundTrip

variable {host : ByteOrder} {l : List UInt8}

@[simp] theorem encode_length (host : ByteOrder) (c : Command) : (encode host c).length = kRecordSize := by
  simp [encode, kRecordSize]

theorem header_length (host : ByteOrder) : (header host).length = 8 := by
  simp [header, kMagic]

/-- A field of `n` bytes behind what comes before it in a record. -/
theorem wordAt_append (pre post : List UInt8) {n v : Nat} (hv : v < 256 ^ n) :
    wordAt host (pre ++ (host.write n v ++ post)) pre.length n = v := by
  unfold wordAt
  rw [List.drop_left, List.take_left' (host.write_length n v), host.read_write hv]

/-- A command is decoded from its record. -/
theorem decode_encode (host : ByteOrder) (c : Command) : decode host (encode host c) = c := by
  have h64 : ∀ v : UInt64, v.toNat < 256 ^ 8 := fun v => v.toNat_lt
  have htrader : wordAt host (encode host c) 4 4 = c.trader.toNat := by
    unfold encode
    simp only [List.append_assoc]
    exact wordAt_append [c.type.raw, c.orderType.raw, c.side.raw, 0] _ c.trader.toNat_lt
  -- the words follow each other from offset 8 on
  have hword : ∀ (pre post : List UInt8) (v : UInt64) (k : Nat), pre.length = k →
      encode host c = pre ++ (host.write 8 v.toNat ++ post) → wordAt host (encode host c) k 8 = v.toNat := by
    rintro pre post v k rfl he
    rw [he]
    exact wordAt_append pre post (h64 v)
  have hid : wordAt host (encode host c) 8 8 = c.id.toNat :=
    hword ([c.type.raw, c.orderType.raw, c.side.raw, 0] ++ host.write 4 c.trader.toNat) _ c.id 8 (by simp)
      (by unfold encode; simp only [List.append_assoc]; rfl)
  have hprice : wordAt host (encode host c) 16 8 = c.price.toUInt64.toNat :=
    hword ([c.type.raw, c.orderType.raw, c.side.raw, 0] ++ host.write 4 c.trader.toNat ++ host.write 8 c.id.toNat) _
      c.price.toUInt64 16 (by simp) (by unfold encode; simp only [List.append_assoc]; rfl)
  have hquantity : wordAt host (encode host c) 24 8 = c.quantity.toNat :=
    hword ([c.type.raw, c.orderType.raw, c.side.raw, 0] ++ host.write 4 c.trader.toNat ++ host.write 8 c.id.toNat ++
      host.write 8 c.price.toUInt64.toNat) _ c.quantity 24 (by simp) (by unfold encode; simp only [List.append_assoc]; rfl)
  have htrigger : wordAt host (encode host c) 32 8 = c.triggerPrice.toUInt64.toNat :=
    hword ([c.type.raw, c.orderType.raw, c.side.raw, 0] ++ host.write 4 c.trader.toNat ++ host.write 8 c.id.toNat ++
      host.write 8 c.price.toUInt64.toNat ++ host.write 8 c.quantity.toNat) [] c.triggerPrice.toUInt64 32 (by simp)
      (by unfold encode; simp only [List.append_assoc, List.append_nil])
  unfold decode
  rw [htrader, hid, hprice, hquantity, htrigger]
  simp only [UInt32.ofNat_toNat, UInt64.ofNat_toNat, Int64.toInt64_toUInt64, encode, List.cons_append,
    List.getD_cons_zero, List.getD_cons_succ]

/-- Writing some commands appends the records of the events among them. -/
theorem append_out (w : EventLogWriter) (cmds : List Command) : (cmds.foldl append w).host = w.host ∧
    (cmds.foldl append w).out = w.out ++ ((cmds.filter isEvent).map (encode w.host)).flatten := by
  induction cmds generalizing w with
  | nil => exact ⟨rfl, by simp⟩
  | cons c cmds ih =>
    rw [List.foldl_cons]
    by_cases hc : c.type = .shutdown
    · have happ : w.append c = w := if_pos hc
      rw [happ, List.filter_cons_of_neg (by simp [isEvent, hc])]
      exact ih w
    · have happ : w.append c = { w with out := w.out ++ encode w.host c, count := w.count + 1 } := if_neg hc
      obtain ⟨hhost, hout⟩ := ih (w.append c)
      rw [happ] at hhost hout ⊢
      refine ⟨hhost, ?_⟩
      rw [hout, List.filter_cons_of_pos (by simp [isEvent, hc]), List.map_cons, List.flatten_cons, List.append_assoc]

/-- Eight bytes and forty for each event: record `N` starts at `8 + N * 40`. -/
theorem journal_length (host : ByteOrder) (cmds : List Command) :
    (cmds.foldl append (create host)).out.length = 8 + (cmds.filter isEvent).length * kRecordSize := by
  have hp : ∀ p ∈ (cmds.filter isEvent).map (encode host), p.length = kRecordSize := by
    intro p hp
    obtain ⟨c, -, rfl⟩ := List.mem_map.1 hp
    exact encode_length host c
  have hhead : (create host).out.length = 8 := header_length host
  have hbody := flatten_length hp
  rw [List.length_map] at hbody
  rw [(append_out (create host) cmds).2, List.length_append, hhead]
  exact congrArg (8 + ·) hbody

/-- The reader accepts what starts with a header, and decodes the complete records behind it. -/
theorem readEventLog_header (host : ByteOrder) (path : String) (body : List UInt8) :
    readEventLog host path (some (header host ++ body)) =
      .ok ((records kRecordSize (header host ++ body).length body).map (decode host)) := by
  have hmagic : (header host ++ body).take 4 = kMagic := by
    unfold header
    rw [List.append_assoc]
    exact List.take_left' rfl
  have hversion : wordAt host (header host ++ body) 4 4 = kVersion.toNat := by
    unfold header
    rw [List.append_assoc]
    exact wordAt_append kMagic _ kVersion.toNat_lt
  have hlen : ¬ ((header host ++ body).length < 8 ∨ (header host ++ body).take 4 ≠ kMagic) := by
    rw [hmagic, List.length_append, header_length]
    simp
  unfold readEventLog
  dsimp only
  rw [if_neg hlen, if_neg (not_not.2 hversion), List.drop_left' (header_length host)]

/-- A file that is too short for the header is refused. -/
theorem readEventLog_short (host : ByteOrder) (path : String) (h : l.length < 8) :
    readEventLog host path (some l) = .error ("read_event_log: bad magic in " ++ path) :=
  if_pos (.inl h)

/-- **A torn journal reads as the events whose records it holds in full.** -/
theorem readEventLog_take (host : ByteOrder) (path : String) (events : List Command) {n : Nat} (h8 : 8 ≤ n)
    (hn : n ≤ 8 + events.length * kRecordSize) :
    readEventLog host path (some ((header host ++ (events.map (encode host)).flatten).take n)) =
      .ok (events.take ((n - 8) / kRecordSize)) := by
  have hp : ∀ p ∈ events.map (encode host), p.length = kRecordSize := by
    intro p hp
    obtain ⟨c, -, rfl⟩ := List.mem_map.1 hp
    exact encode_length host c
  obtain ⟨rest, htake, hrest⟩ := take_flatten (by decide) hp (m := n - 8) (by rw [List.length_map]; omega)
  have hcut : (header host ++ (events.map (encode host)).flatten).take n =
      header host ++ (((events.map (encode host)).take ((n - 8) / kRecordSize)).flatten ++ rest) := by
    rw [List.take_append, header_length, htake, List.take_of_length_le (by rw [header_length]; exact h8)]
  have hp' : ∀ p ∈ (events.map (encode host)).take ((n - 8) / kRecordSize), p.length = kRecordSize :=
    fun p hp' => hp p (List.mem_of_mem_take hp')
  have hdecode : decode host ∘ encode host = id := funext (decode_encode host)
  rw [hcut, readEventLog_header, records_flatten hp' hrest, ← List.map_take, List.map_map, hdecode, List.map_id]
  -- the file has a byte at least for each record
  have := flatten_length hp'
  rw [List.length_append, List.length_append, header_length, this]
  unfold kRecordSize
  omega

end RoundTrip

end Obe
