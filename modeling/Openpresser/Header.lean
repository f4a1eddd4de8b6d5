import Openpresser.Format

/-! The header's two directions. Every accepted prefix is exactly what the writer
produces for the fields that were read; bytes behind the directory are not looked at. -/
namespace Openpresser.Format

@[simp] theorem lengthU32Bytes (v : UInt32) : (u32Bytes v).length = 4 := by simp [u32Bytes]
@[simp] theorem lengthU64Bytes (v : UInt64) : (u64Bytes v).length = 8 := by simp [u64Bytes]

@[simp] theorem lengthHeaderFields (hdr : PpmoHeader) : (headerFields hdr).length = 22 := by
  simp [headerFields, magic]

@[simp] theorem lengthEntryBytes (e : BlockEntry) : (entryBytes e).length = 12 := by simp [entryBytes]

theorem lengthDirectory (d : List BlockEntry) : (d.flatMap entryBytes).length = 12 * d.length := by
  induction d with
  | nil => rfl
  | cons e d ih => simp [ih]; omega

theorem writeHeaderEq (hdr : PpmoHeader) (d : List BlockEntry) :
    writeHeader hdr d =
      headerFields hdr ++ u32Bytes (crc32 (headerFields hdr)) ++ d.flatMap entryBytes := by
  have all : (headerFields hdr).take 22 = headerFields hdr := List.take_of_length_le (by simp)
  simp [writeHeader, all]

theorem lengthWriteHeader (hdr : PpmoHeader) (d : List BlockEntry) :
    (writeHeader hdr d).length = 26 + 12 * d.length := by
  simp only [writeHeaderEq, List.length_append, lengthHeaderFields, lengthU32Bytes, lengthDirectory]

theorem decodeU32Bytes (v : UInt32) : UInt32.ofNat (LittleEndian.decode (u32Bytes v)) = v := by
  rw [u32Bytes, LittleEndian.decodeEncodeBounded v.toNat_lt, UInt32.ofNat_toNat]

theorem decodeU64Bytes (v : UInt64) : UInt64.ofNat (LittleEndian.decode (u64Bytes v)) = v := by
  rw [u64Bytes, LittleEndian.decodeEncodeBounded v.toNat_lt, UInt64.ofNat_toNat]

theorem u32BytesDecode {raw : Bytes} (length : raw.length = 4) :
    u32Bytes (UInt32.ofNat (LittleEndian.decode raw)) = raw := by
  have bound := LittleEndian.decodeBound raw
  rw [length] at bound
  rw [u32Bytes, UInt32.toNat_ofNat_of_lt' bound]
  exact LittleEndian.encodeOfDecode length

theorem u64BytesDecode {raw : Bytes} (length : raw.length = 8) :
    u64Bytes (UInt64.ofNat (LittleEndian.decode raw)) = raw := by
  have bound := LittleEndian.decodeBound raw
  rw [length] at bound
  rw [u64Bytes, UInt64.toNat_ofNat_of_lt' bound]
  exact LittleEndian.encodeOfDecode length

/-! Reading a field that was written. -/
theorem readU32At (pre : Bytes) (v : UInt32) (post : Bytes) (start : Nat) (place : pre.length = start) :
    readU32 (pre ++ u32Bytes v ++ post) start = .ok v := by
  have found := Outcome.sliceMiddle (ε := EngineError) pre (u32Bytes v) post
  rw [lengthU32Bytes, place] at found
  simp only [readU32, found, Outcome.okBind, decodeU32Bytes]

theorem readU64At (pre : Bytes) (v : UInt64) (post : Bytes) (start : Nat) (place : pre.length = start) :
    readU64 (pre ++ u64Bytes v ++ post) start = .ok v := by
  have found := Outcome.sliceMiddle (ε := EngineError) pre (u64Bytes v) post
  rw [lengthU64Bytes, place] at found
  simp only [readU64, found, Outcome.okBind, decodeU64Bytes]

theorem readEntryAt (pre : Bytes) (e : BlockEntry) (post : Bytes) (base : Nat) (place : pre.length = base) :
    readEntry (pre ++ entryBytes e ++ post) base = .ok e := by
  have first := readU32At pre e.compressedLen (u32Bytes e.uncompressedLen ++ u32Bytes e.crc32 ++ post)
    base place
  have second := readU32At (pre ++ u32Bytes e.compressedLen) e.uncompressedLen
    (u32Bytes e.crc32 ++ post) (base + 4) (by simp [place])
  have third := readU32At (pre ++ u32Bytes e.compressedLen ++ u32Bytes e.uncompressedLen) e.crc32 post
    (base + 8) (by simp [place])
  simp only [entryBytes, ← List.append_assoc] at first second third ⊢
  simp only [readEntry, first, second, third, Outcome.okBind]

theorem readDirectoryAt (pre : Bytes) (d : List BlockEntry) (post : Bytes) (base : Nat)
    (place : pre.length = base) :
    (List.range d.length).mapM (fun i => readEntry (pre ++ d.flatMap entryBytes ++ post) (base + i * 12))
      = .ok d := by
  have each : ∀ i ∈ List.range d.length,
      readEntry (pre ++ d.flatMap entryBytes ++ post) (base + i * 12) = .ok (d.getD i ⟨0,0,0⟩) := by
    intro i member
    have inside : i < d.length := List.mem_range.mp member
    have split : d = d.take i ++ d[i] :: d.drop (i + 1) := by
      rw [List.getElem_cons_drop, List.take_append_drop]
    have bytes : d.flatMap entryBytes =
        (d.take i).flatMap entryBytes ++ entryBytes d[i] ++ (d.drop (i + 1)).flatMap entryBytes := by
      rw [List.append_assoc, ← List.flatMap_cons, ← List.flatMap_append, ← split]
    have position : (pre ++ (d.take i).flatMap entryBytes).length = base + i * 12 := by
      rw [List.length_append, lengthDirectory, List.length_take, place, Nat.min_eq_left (by omega)]
      omega
    have found := readEntryAt (pre ++ (d.take i).flatMap entryBytes) d[i]
      ((d.drop (i + 1)).flatMap entryBytes ++ post) _ position
    rw [bytes, List.getD_eq_getElem _ _ inside]
    simpa only [List.append_assoc] using found
  rw [Outcome.mapMPointwise each]
  congr 1
  apply List.ext_getElem (by simp)
  intro i h _
  simp at h
  simp [h]

/-! A field that was read is the bytes it was read from. -/
theorem readU32Inside (data : Bytes) (start : Nat) (inside : start + 4 ≤ data.length) :
    ∃ v, readU32 data start = .ok v ∧ u32Bytes v = (data.drop start).take 4 := by
  refine ⟨_, ?_, u32BytesDecode (by simp; omega : ((data.drop start).take 4).length = 4)⟩
  rw [readU32, Outcome.sliceInside (by omega) inside, Nat.add_sub_cancel_left, Outcome.okBind]

theorem readU64Inside (data : Bytes) (start : Nat) (inside : start + 8 ≤ data.length) :
    ∃ v, readU64 data start = .ok v ∧ u64Bytes v = (data.drop start).take 8 := by
  refine ⟨_, ?_, u64BytesDecode (by simp; omega : ((data.drop start).take 8).length = 8)⟩
  rw [readU64, Outcome.sliceInside (by omega) inside, Nat.add_sub_cancel_left, Outcome.okBind]

theorem readEntryInside (data : Bytes) (base : Nat) (inside : base + 12 ≤ data.length) :
    ∃ e, readEntry data base = .ok e ∧ entryBytes e = (data.drop base).take 12 := by
  obtain ⟨c, hc, bc⟩ := readU32Inside data base (by omega)
  obtain ⟨u, hu, bu⟩ := readU32Inside data (base + 4) (by omega)
  obtain ⟨s, hs, bs⟩ := readU32Inside data (base + 8) (by omega)
  refine ⟨⟨c, u, s⟩, by simp only [readEntry, hc, hu, hs, Outcome.okBind], ?_⟩
  rw [entryBytes, bc, bu, bs, show (12 : Nat) = 4 + 4 + 4 by rfl, List.take_add, List.take_add]
  simp [List.drop_drop]

theorem readDirectoryInside (data : Bytes) (base n : Nat) (inside : base + 12 * n ≤ data.length) :
    ∃ d, (List.range n).mapM (fun i => readEntry data (base + i * 12)) = .ok d ∧ d.length = n ∧
      d.flatMap entryBytes = (data.drop base).take (12 * n) := by
  induction n with
  | zero => exact ⟨[], rfl, rfl, by simp⟩
  | succ n ih =>
    obtain ⟨d, hd, length, bytes⟩ := ih (by omega)
    obtain ⟨e, he, last⟩ := readEntryInside data (base + n * 12) (by omega)
    refine ⟨d ++ [e], ?_, by simp [length], ?_⟩
    · rw [List.range_succ, List.mapM_append, hd]
      simp [he]
    · rw [List.flatMap_append, bytes, Nat.mul_succ, List.take_add, List.drop_drop]
      simp [last, Nat.mul_comm]

structure Accepted (data : Bytes) (hdr : PpmoHeader) (directory : List BlockEntry) (stop : Nat) : Prop where
  count : directory.length = hdr.blockCount.toNat
  place : stop = 26 + 12 * directory.length
  inside : stop ≤ data.length
  written : writeHeader hdr directory = data.take stop

theorem readHeaderOfWritten (hdr : PpmoHeader) (d : List BlockEntry) (t : Bytes)
    (count : d.length = hdr.blockCount.toNat) :
    readHeader (writeHeader hdr d ++ t) = .ok (hdr, d, 26 + 12 * d.length) := by
  let crc := crc32 (headerFields hdr)
  let data := writeHeader hdr d ++ t
  have fields : data = headerFields hdr ++ (u32Bytes crc ++ d.flatMap entryBytes ++ t) := by
    simp [data, crc, writeHeaderEq]
  have whole : data = magic ++ [version] ++ [hdr.flags] ++ u32Bytes hdr.blockCount ++
      u64Bytes hdr.originalSize ++ u32Bytes hdr.blockSize ++ u32Bytes crc ++ d.flatMap entryBytes ++ t := by
    simp [fields, headerFields]
  have length : data.length = 26 + 12 * d.length + t.length := by
    simp [data, lengthWriteHeader]
  have enough : headerBaseLen ≤ data.length := by rw [length, headerBaseLen]; omega
  have hMagic : (Outcome.slice data 0 4 : Result Bytes) = .ok magic := by
    rw [whole]; simp [Outcome.slice, magic]
  have hVersion : (Outcome.get data 4 : Result UInt8) = .ok version := by
    apply Outcome.getFound; rw [whole]; simp [magic]
  have hFlags : (Outcome.get data 5 : Result UInt8) = .ok hdr.flags := by
    apply Outcome.getFound; rw [whole]; simp [magic]
  have hCount : readU32 data 6 = .ok hdr.blockCount := by
    rw [whole]; simpa only [List.append_assoc] using
      readU32At (magic ++ [version] ++ [hdr.flags]) hdr.blockCount _ 6 (by simp [magic])
  have hSize : readU64 data 10 = .ok hdr.originalSize := by
    rw [whole]; simpa only [List.append_assoc] using
      readU64At (magic ++ [version] ++ [hdr.flags] ++ u32Bytes hdr.blockCount) hdr.originalSize _ 10
        (by simp [magic])
  have hBlock : readU32 data 18 = .ok hdr.blockSize := by
    rw [whole]; simpa only [List.append_assoc] using
      readU32At (magic ++ [version] ++ [hdr.flags] ++ u32Bytes hdr.blockCount ++ u64Bytes hdr.originalSize)
        hdr.blockSize _ 18 (by simp [magic])
  have hCrc : readU32 data 22 = .ok crc := by
    rw [fields]; simpa only [List.append_assoc] using readU32At (headerFields hdr) crc _ 22 (by simp)
  have hCovered : (Outcome.slice data 0 22 : Result Bytes) = .ok (headerFields hdr) := by
    rw [fields]; simpa using Outcome.sliceMiddle (ε := EngineError) [] (headerFields hdr) _
  have hDirectory := readDirectoryAt (headerFields hdr ++ u32Bytes crc) d t 26 (by simp)
  have sameData : headerFields hdr ++ u32Bytes crc ++ d.flatMap entryBytes ++ t = data := by
    simp [fields]
  rw [sameData, count] at hDirectory
  have reach : headerBaseLen + hdr.blockCount.toNat * 12 ≤ data.length := by
    rw [length, count, headerBaseLen]; omega
  change readHeader data = _
  simp only [readHeader, hMagic, hVersion, hFlags, hCount, hSize, hBlock, hCrc, hCovered,
    Outcome.okBind, Outcome.ensurePass _ enough, Outcome.ensurePass _ reach, Outcome.ensurePass, crc]
  simp only [headerBaseLen, hDirectory, Outcome.okBind, count, Nat.mul_comm]

theorem byteInside (data : Bytes) (i : Nat) (inside : i < data.length) :
    ∃ b, (Outcome.get data i : Result UInt8) = .ok b ∧ [b] = (data.drop i).take 1 :=
  ⟨data[i], Outcome.getInside inside, by rw [List.drop_eq_getElem_cons inside, List.take_succ_cons, List.take_zero]⟩

theorem readHeaderCases (data : Bytes) :
    (∃ e, readHeader data = .err e) ∨
    ∃ hdr d stop, readHeader data = .ok (hdr, d, stop) ∧ Accepted data hdr d stop := by
  by_cases enough : headerBaseLen ≤ data.length
  case neg => exact .inl ⟨_, by rw [readHeader, Outcome.ensureFail _ enough, Outcome.errBind]⟩
  have long : 26 ≤ data.length := enough
  obtain ⟨v, hv, bv⟩ := byteInside data 4 (by omega)
  obtain ⟨flags, hf, bf⟩ := byteInside data 5 (by omega)
  obtain ⟨count, hc, bc⟩ := readU32Inside data 6 (by omega)
  obtain ⟨size, hs, bs⟩ := readU64Inside data 10 (by omega)
  obtain ⟨block, hb, bb⟩ := readU32Inside data 18 (by omega)
  obtain ⟨stored, hk, bk⟩ := readU32Inside data 22 (by omega)
  have hMagic : (Outcome.slice data 0 4 : Result Bytes) = .ok (data.take 4) :=
    Outcome.sliceInside (by omega) (by omega)
  have hCovered : (Outcome.slice data 0 22 : Result Bytes) = .ok (data.take 22) :=
    Outcome.sliceInside (by omega) (by omega)
  simp only [readHeader, Outcome.ensurePass _ enough, hMagic, hv, hf, hc, hs, hb, hk, hCovered,
    Outcome.okBind]
  by_cases isMagic : data.take 4 = magic
  case neg => exact .inl ⟨_, by rw [Outcome.ensureFail _ isMagic, Outcome.errBind]⟩
  by_cases isVersion : v = version
  case neg => exact .inl ⟨_, by
    rw [Outcome.ensurePass _ isMagic, Outcome.okBind, Outcome.ensureFail _ isVersion, Outcome.errBind]⟩
  by_cases sameCrc : stored = crc32 (data.take 22)
  case neg => exact .inl ⟨_, by
    rw [Outcome.ensurePass _ isMagic, Outcome.okBind, Outcome.ensurePass _ isVersion, Outcome.okBind,
      Outcome.ensureFail _ sameCrc, Outcome.errBind]⟩
  by_cases reach : headerBaseLen + count.toNat * 12 ≤ data.length
  case neg => exact .inl ⟨_, by
    rw [Outcome.ensurePass _ isMagic, Outcome.okBind, Outcome.ensurePass _ isVersion, Outcome.okBind,
      Outcome.ensurePass _ sameCrc, Outcome.okBind, Outcome.ensureFail _ reach, Outcome.errBind]⟩
  have room : 26 + 12 * count.toNat ≤ data.length := by
    rw [headerBaseLen] at reach; omega
  obtain ⟨d, hd, length, bytes⟩ := readDirectoryInside data 26 count.toNat room
  refine .inr ⟨⟨flags, count, size, block⟩, d, headerBaseLen + count.toNat * 12, ?_, ?_⟩
  · simp only [Outcome.ensurePass _ isMagic, Outcome.ensurePass _ isVersion, Outcome.ensurePass _ sameCrc,
      Outcome.ensurePass _ reach, Outcome.okBind]
    rw [headerBaseLen, hd, Outcome.okBind]
  · have fields : headerFields ⟨flags, count, size, block⟩ = data.take 22 := by
      rw [headerFields, bc, bs, bb, bf, ← isMagic, ← isVersion, bv,
        show (22 : Nat) = 4 + 1 + 1 + 4 + 8 + 4 by rfl]
      simp only [List.take_add]
    refine ⟨length, by rw [headerBaseLen, length]; omega, reach, ?_⟩
    rw [writeHeaderEq, fields, ← sameCrc, bk, bytes, headerBaseLen, Nat.mul_comm 12,
      show 26 + count.toNat * 12 = 22 + 4 + count.toNat * 12 by omega, List.take_add, List.take_add]

theorem readHeaderAccepted {data : Bytes} {hdr : PpmoHeader} {d : List BlockEntry} {stop : Nat}
    (ok : readHeader data = .ok (hdr, d, stop)) : Accepted data hdr d stop := by
  rcases readHeaderCases data with ⟨e, failed⟩ | ⟨hdr', d', stop', found, accepted⟩
  · rw [failed] at ok; contradiction
  · rw [found] at ok
    cases Outcome.ok.inj ok
    exact accepted

theorem readHeaderReturns (data : Bytes) : (readHeader data).Returns := by
  rcases readHeaderCases data with ⟨e, failed⟩ | ⟨hdr, d, stop, found, _⟩
  · rw [failed]; trivial
  · rw [found]; trivial

theorem headerTwoSidedInverse :
    (∀ (hdr : PpmoHeader) (d : List BlockEntry) (t : Bytes), d.length = hdr.blockCount.toNat →
      readHeader (writeHeader hdr d ++ t) = .ok (hdr, d, 26 + 12 * d.length)) ∧
    (∀ (s : Bytes) (hdr : PpmoHeader) (d : List BlockEntry) (stop : Nat),
      readHeader s = .ok (hdr, d, stop) →
        d.length = hdr.blockCount.toNat ∧ stop = 26 + 12 * hdr.blockCount.toNat ∧ stop ≤ s.length ∧
        writeHeader hdr d = s.take stop) ∧
    (∀ s : Bytes, (readHeader s).Returns) := by
  refine ⟨readHeaderOfWritten, ?_, readHeaderReturns⟩
  intro s hdr d stop ok
  have accepted := readHeaderAccepted ok
  exact ⟨accepted.count, by rw [accepted.place, accepted.count], accepted.inside, accepted.written⟩

theorem headerTwoSidedInverseAt :
    readHeader (writeHeader ⟨1, 1, 3, 65536⟩ [⟨14, 3, 0⟩] ++ [7]) = .ok (⟨1, 1, 3, 65536⟩, [⟨14, 3, 0⟩], 38) :=
  headerTwoSidedInverse.1 ⟨1, 1, 3, 65536⟩ [⟨14, 3, 0⟩] [7] rfl

end Openpresser.Format
