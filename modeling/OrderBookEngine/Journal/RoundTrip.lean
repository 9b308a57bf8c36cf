/-
The journal format over every file: which files `read_event_log` refuses, what it makes of the
others, and what is left of a file when the commands read from it are written again.
-/
import OrderBookEngine.Journal.EventLog

namespace Obe

open Bytes EventLogWriter

variable {host : ByteOrder} {r : List UInt8}

/-! ## One record -/

/-- The bytes under a word are those written for it. -/
theorem write_wordAt {buf : List UInt8} {offset n : Nat} (h : offset + n ≤ buf.length) :
    host.write n (wordAt host buf offset n) = (buf.drop offset).take n := by
  have hlen : ((buf.drop offset).take n).length = n := by
    rw [List.length_take, List.length_drop]; omega
  have := host.write_read ((buf.drop offset).take n)
  rwa [hlen] at this

theorem wordAt_lt (host : ByteOrder) (buf : List UInt8) (offset n : Nat) : wordAt host buf offset n < 256 ^ n := by
  refine (host.read_lt _).trans_le (Nat.pow_le_pow_right (by decide) ?_)
  rw [List.length_take]; omega

/-- Words that follow each other to the end of a buffer are the buffer. -/
theorem take_append_take {α : Type} (l : List α) (n m : Nat) : l.take n ++ (l.drop n).take m = l.take (n + m) :=
  List.take_add.symm

/-- **A record is encoded again as it was decoded, with the padding cleared.** -/
theorem encode_decode (host : ByteOrder) (hr : r.length = kRecordSize) :
    encode host (decode host r) = r.set 3 0 := by
  have hlen : r.length = 40 := hr
  have h32 : ∀ off, off + 4 ≤ 40 →
      host.write 4 (UInt32.ofNat (wordAt host r off 4)).toNat = (r.drop off).take 4 := by
    intro off hoff
    have hlt : wordAt host r off 4 < 2 ^ 32 := wordAt_lt host r off 4
    rw [UInt32.toNat_ofNat_of_lt' hlt, write_wordAt (by omega)]
  have h64 : ∀ off, off + 8 ≤ 40 →
      host.write 8 (UInt64.ofNat (wordAt host r off 8)).toNat = (r.drop off).take 8 := by
    intro off hoff
    have hlt : wordAt host r off 8 < 2 ^ 64 := wordAt_lt host r off 8
    rw [UInt64.toNat_ofNat_of_lt' hlt, write_wordAt (by omega)]
  -- the five words are what is behind the first four bytes
  have hwords : (r.drop 4).take 4 ++ (r.drop 8).take 8 ++ (r.drop 16).take 8 ++ (r.drop 24).take 8 ++
      (r.drop 32).take 8 = r.drop 4 := by
    have hdrop : ∀ k, r.drop (4 + k) = (r.drop 4).drop k := fun k => List.drop_drop.symm
    rw [hdrop 4, hdrop 12, hdrop 20, hdrop 28, take_append_take, take_append_take, take_append_take,
      take_append_take, List.take_of_length_le (by rw [List.length_drop]; omega)]
  unfold encode decode
  simp only [UInt64.toUInt64_toInt64]
  rw [h32 4 (by omega), h64 8 (by omega), h64 16 (by omega), h64 24 (by omega), h64 32 (by omega)]
  simp only [List.append_assoc] at hwords ⊢
  rw [hwords]
  -- only the fourth byte is not written from the record
  match r, hlen with
  | a :: b :: c :: d :: tail, _ => rfl

/-- A record is that of the shutdown sentinel by its first byte. -/
theorem isEvent_decode (host : ByteOrder) (r : List UInt8) : isEvent (decode host r) = decide (r.getD 0 0 ≠ 2) := by
  unfold isEvent decode CommandType.shutdown
  rw [decide_eq_decide, ne_eq, CommandType.mk.injEq]

/-! ## Whole files -/

/-- The complete records behind the header. -/
def completeRecords (f : List UInt8) : List (List UInt8) :=
  (List.range ((f.length - 8) / kRecordSize)).map (recordAt kRecordSize (f.drop 8))

section Files

variable {f : List UInt8} {rs : List (List UInt8)}

theorem completeRecords_length (f : List UInt8) : (completeRecords f).length = (f.length - 8) / kRecordSize := by
  unfold completeRecords
  rw [List.length_map, List.length_range]

/-- A complete record has all its bytes. -/
theorem length_of_mem_completeRecords (hr : r ∈ completeRecords f) : r.length = kRecordSize := by
  obtain ⟨i, hi, rfl⟩ := List.mem_map.1 hr
  have hlt : i < (f.length - 8) / kRecordSize := List.mem_range.1 hi
  apply recordAt_length
  rw [List.length_drop]
  calc (i + 1) * kRecordSize ≤ (f.length - 8) / kRecordSize * kRecordSize := Nat.mul_le_mul_right _ hlt
    _ ≤ f.length - 8 := Nat.div_mul_le_self ..

/-- The reader decodes the complete records of what has the header of this host. -/
theorem readEventLog_of_header (path : String) (h8 : 8 ≤ f.length) (hmagic : f.take 4 = kMagic)
    (hversion : wordAt host f 4 4 = kVersion.toNat) :
    readEventLog host path (some f) = .ok ((completeRecords f).map (decode host)) := by
  have hlen : ¬ (f.length < 8 ∨ f.take 4 ≠ kMagic) := by
    rintro (h | h)
    · omega
    · exact h hmagic
  have hrecords : records kRecordSize f.length (f.drop 8) = completeRecords f := by
    rw [records_eq (by decide) (by rw [List.length_drop]; exact (Nat.div_le_self ..).trans (by omega)),
      List.length_drop]
    rfl
  unfold readEventLog
  dsimp only
  rw [if_neg hlen, if_neg (not_not.2 hversion), hrecords]

/-- What the reader refuses, and with what message. -/
theorem readEventLog_error_iff (host : ByteOrder) (path : String) (f : List UInt8) :
    (∃ e, readEventLog host path (some f) = .error e) ↔
      f.length < 8 ∨ f.take 4 ≠ kMagic ∨ wordAt host f 4 4 ≠ kVersion.toNat := by
  constructor
  · rintro ⟨e, he⟩
    by_contra hok
    obtain ⟨h8, hmagic, hversion⟩ : 8 ≤ f.length ∧ f.take 4 = kMagic ∧ wordAt host f 4 4 = kVersion.toNat := by
      simpa only [not_or, not_lt, not_not] using hok
    rw [readEventLog_of_header path h8 hmagic hversion] at he
    cases he
  · intro h
    unfold readEventLog
    dsimp only
    by_cases hhead : f.length < 8 ∨ f.take 4 ≠ kMagic
    · exact ⟨_, if_pos hhead⟩
    · have hversion : wordAt host f 4 4 ≠ kVersion.toNat := by
        rcases h with h | h | h
        · exact absurd (.inl h) hhead
        · exact absurd (.inr h) hhead
        · exact h
      exact ⟨_, (if_neg hhead).trans (if_pos hversion)⟩

/-- A file that is read starts with the header this host writes. -/
theorem take_eq_header (h8 : 8 ≤ f.length) (hmagic : f.take 4 = kMagic)
    (hversion : wordAt host f 4 4 = kVersion.toNat) :
    header host = f.take 8 := by
  have hword := @write_wordAt host f 4 4 h8
  unfold header
  rw [← hversion, hword, ← hmagic, take_append_take]

/-- The records of decoded records: those of the sentinel are gone, the padding is clear. -/
theorem encode_map_decode (hrs : ∀ r ∈ rs, r.length = kRecordSize) :
    ((rs.map (decode host)).filter isEvent).map (encode host) =
      (rs.filter fun r => r.getD 0 0 ≠ 2).map fun r => r.set 3 0 := by
  have hfilter : isEvent ∘ decode host = fun r => decide (r.getD 0 0 ≠ 2) := funext (isEvent_decode host)
  rw [List.filter_map, hfilter, List.map_map]
  apply List.map_congr_left
  intro r hr
  exact encode_decode host (hrs r (List.mem_of_mem_filter hr))

/-- A record of a written journal is at its place. -/
theorem journal_record (host : ByteOrder) (cmds : List Command) {N : Nat} {c : Command}
    (hc : (cmds.filter isEvent)[N]? = some c) :
    (((cmds.foldl append (create host)).out.drop (8 + 40 * N)).take 40) = encode host c := by
  have hp : ∀ p ∈ (cmds.filter isEvent).map (encode host), p.length = kRecordSize := by
    intro p hp
    obtain ⟨c, -, rfl⟩ := List.mem_map.1 hp
    exact encode_length host c
  have hi : ((cmds.filter isEvent).map (encode host))[N]? = some (encode host c) := by
    rw [List.getElem?_map, hc]; rfl
  rw [(append_out (create host) cmds).2, ← List.drop_drop, Nat.mul_comm]
  show (((header host ++ _).drop 8).drop (N * 40)).take 40 = _
  rw [List.drop_left' (header_length host)]
  exact recordAt_flatten hp hi

/-- **The journal format round trips.** What is written is read back without the sentinels, each record
at its place; what is read is written again record by record, and only a file without the header is
refused. -/
theorem journal_round_trip (host : ByteOrder) (path : String) :
    (∀ cmds : List Command,
      readEventLog host path (some (cmds.foldl append (create host)).out) =
          .ok (cmds.filter fun c => c.type ≠ .shutdown) ∧
        ∀ N c, (cmds.filter fun c => c.type ≠ .shutdown)[N]? = some c →
          (((cmds.foldl append (create host)).out.drop (8 + 40 * N)).take 40) = encode host c) ∧
      ∀ f : List UInt8,
        ((∃ e, readEventLog host path (some f) = .error e) ↔
          f.length < 8 ∨ f.take 4 ≠ [0x4F, 0x42, 0x45, 0x4C] ∨ host.read ((f.drop 4).take 4) ≠ 1) ∧
        ∀ cmds, readEventLog host path (some f) = .ok cmds → cmds.length = (f.length - 8) / 40 ∧
          (cmds.foldl append (create host)).out = f.take 8 ++
            (((completeRecords f).filter fun r => r.getD 0 0 ≠ 2).map fun r => r.set 3 0).flatten := by
  refine ⟨fun cmds => ⟨?_, fun N c => journal_record host cmds⟩, fun f => ⟨readEventLog_error_iff host path f, ?_⟩⟩
  · -- nothing is cut off
    have hlen := journal_length host cmds
    have hout := (append_out (create host) cmds).2
    have hread := readEventLog_take host path (cmds.filter isEvent)
      (n := (cmds.foldl append (create host)).out.length) (by omega) (by omega)
    have hwhole : header host ++ ((cmds.filter isEvent).map (encode host)).flatten =
        (cmds.foldl append (create host)).out := hout.symm
    rw [hwhole, List.take_length, hlen, Nat.add_sub_cancel_left, Nat.mul_div_cancel _ (by decide), List.take_length]
      at hread
    exact hread
  · intro cmds hcmds
    have hok : ¬ (f.length < 8 ∨ f.take 4 ≠ kMagic ∨ wordAt host f 4 4 ≠ kVersion.toNat) := by
      rw [← readEventLog_error_iff host path f, hcmds]
      rintro ⟨e, he⟩
      cases he
    obtain ⟨h8, hmagic, hversion⟩ : 8 ≤ f.length ∧ f.take 4 = kMagic ∧ wordAt host f 4 4 = kVersion.toNat := by
      simpa only [not_or, not_lt, not_not] using hok
    obtain rfl : (completeRecords f).map (decode host) = cmds := by
      rw [readEventLog_of_header path h8 hmagic hversion] at hcmds
      exact Except.ok.inj hcmds
    constructor
    · rw [List.length_map]
      exact completeRecords_length f
    · -- the header is written anew, the records as they were decoded
      have hbody := @encode_map_decode host _ fun r => @length_of_mem_completeRecords r f
      rw [(append_out (create host) _).2, ← take_eq_header h8 hmagic hversion, ← hbody]
      rfl

end Files

end Obe
