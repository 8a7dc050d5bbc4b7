import PkgManager.MultipartDecompress

namespace PkgManager.MultipartAssembly

open MultipartHeader
open MultipartDecompress (Miniz Buffers Outcome Writer chunkHeaderSize parseChunkHeader decodeChunk startPayload
  verifyParts buffers)

/-- What the calls around the copy come to: whether the output is opened and the buffers
are allocated, the cancel flag at each look, and the most that each `fwrite` takes. -/
structure Console where
  opens : Bool
  allocates : Bool
  cancel : Nat → Bool
  takes : Nat → Nat

/-- The largest offset of a file. -/
def maxFile : Nat := 2 ^ 63 - 1

/-- The file behind `out_f`, `total_written`, and the looks and writes so far. -/
structure Output where
  file : List UInt8
  totalWritten : Nat
  polls : Nat
  writes : Nat

def Output.start : Output := ⟨[], 0, 0, 0⟩

def Output.polled (o : Output) : Output := { o with polls := o.polls + 1 }

/-- `fwrite` of all of the bytes, with the result where it takes fewer. -/
def Output.put (c : Console) (short : Int) (o : Output) (bs : List UInt8) : Int × Output :=
  let n := min bs.length (min (c.takes o.writes) (maxFile - o.file.length))
  let o := { o with file := o.file ++ bs.take n, writes := o.writes + 1 }
  if n ≠ bs.length then (short, o)
  else (0, { o with totalWritten := (o.totalWritten + n) % 2 ^ 64 })

/-- A raw slice, a buffer at a time. -/
def rawSlice (c : Console) (cap : Nat) : Nat → Nat → List UInt8 → Output → Int × Output
  | 0, _, _, o => (0, o)
  | n + 1, bytesLeft, input, o =>
    if bytesLeft = 0 then (0, o)
    else if c.cancel o.polls then (-99, o.polled)
    else
      let chunk := input.take (min bytesLeft cap)
      if chunk = [] then (-13, o.polled)
      else
        let r := o.polled.put c (-14) chunk
        if r.1 ≠ 0 then r
        else rawSlice c cap n (bytesLeft - chunk.length) (input.drop chunk.length) r.2

/-- The legacy format: chunks, each behind a header of its own. -/
def chunkLoop (z : Miniz) (c : Console) (b : Buffers) (compressionType : Nat) :
    Nat → List UInt8 → Output → Int × Output
  | 0, _, o => (0, o)
  | n + 1, input, o =>
    if c.cancel o.polls then (-99, o.polled)
    else if input.length < chunkHeaderSize then (-11, o.polled)
    else
      let chdr := parseChunkHeader input
      let body := input.drop chunkHeaderSize
      if b.comp < chdr.compressedSize ∨ b.uncomp < chdr.uncompressedSize then (-12, o.polled)
      else if body.length < chdr.compressedSize then (-13, o.polled)
      else
        match decodeChunk z compressionType b.uncomp chdr (body.take chdr.compressedSize) with
        | .error e => (e, o.polled)
        | .ok out =>
          let r := o.polled.put c (if compressionType = 0 then -14 else -17) out
          if r.1 ≠ 0 then r
          else chunkLoop z c b compressionType n (body.drop chdr.compressedSize) r.2

/-- The pass through the loop over the parts. -/
def processPart (z : Miniz) (c : Console) (b : Buffers) (file : Option (List UInt8)) (o : Output) :
    Int × Output :=
  if c.cancel o.polls then (-99, o.polled)
  else
    match file with
    | none => (-9, o.polled)
    | some bs =>
      if bs.length < headerSize then (-10, o.polled)
      else
        match startPayload (parse bs) with
        | .error e => (e, o.polled)
        | .ok start =>
          if (parse bs).numChunksInPart = 0 ∧ (parse bs).compressionType = 0 then
            rawSlice c b.uncomp (parse bs).partDataSize (parse bs).partDataSize (bs.drop start) o.polled
          else
            chunkLoop z c b (parse bs).compressionType (parse bs).numChunksInPart (bs.drop start) o.polled

def processParts (z : Miniz) (c : Console) (b : Buffers) :
    List (Option (List UInt8)) → Output → Int × Output
  | [], o => (0, o)
  | file :: files, o =>
    let r := processPart z c b file o
    if r.1 ≠ 0 then r else processParts z c b files r.2

/-- `multipart_decompress_to_pkg`: what it returns, and what is at the path of the output
after it, where `before` was. -/
def decompressToPkg (z : Miniz) (c : Console) (files : List (Option (List UInt8)))
    (before : Option (List UInt8)) : Outcome :=
  match files with
  | [] => ⟨-1, before⟩
  | file :: others =>
    match readHeader file with
    | .error _ => ⟨-2, before⟩
    | .ok first =>
      if first.totalParts ≠ files.length then ⟨-3, before⟩
      else
        match verifyParts files.length first.packageUuid 1 others first.partDataSize with
        | .error e => ⟨e, before⟩
        | .ok partsSum =>
          if 0 < first.totalPkgSize ∧ partsSum ≠ 0 ∧ partsSum ≠ first.totalPkgSize then ⟨-18, before⟩
          else if c.opens = false then ⟨-7, before⟩
          else
            -- from here on the file exists, and every way out but the last one unlinks it
            match buffers first with
            | none => ⟨-8, none⟩
            | some b =>
              if c.allocates = false then ⟨-8, none⟩
              else
                let r := processParts z c b files Output.start
                if r.1 ≠ 0 then ⟨r.1, none⟩
                else if 0 < first.totalPkgSize ∧ r.2.totalWritten ≠ first.totalPkgSize then ⟨-18, none⟩
                else ⟨0, some r.2.file⟩

/-! What the parts hold. -/

/-- The content of so many chunks. -/
def decodedChunks (z : Miniz) (b : Buffers) (compressionType : Nat) : Nat → List UInt8 → Option (List UInt8)
  | 0, _ => some []
  | n + 1, input =>
    if input.length < chunkHeaderSize then none
    else
      let chdr := parseChunkHeader input
      let body := input.drop chunkHeaderSize
      if b.comp < chdr.compressedSize ∨ b.uncomp < chdr.uncompressedSize ∨
        body.length < chdr.compressedSize then none
      else
        match decodeChunk z compressionType b.uncomp chdr (body.take chdr.compressedSize) with
        | .error _ => none
        | .ok out =>
          (decodedChunks z b compressionType n (body.drop chdr.compressedSize)).map (out ++ ·)

/-- The slice of the package in a part. -/
def decodedSlice (z : Miniz) (b : Buffers) (bs : List UInt8) : Option (List UInt8) :=
  match startPayload (parse bs) with
  | .error _ => none
  | .ok start =>
    if (parse bs).numChunksInPart = 0 ∧ (parse bs).compressionType = 0 then
      if (bs.drop start).length < (parse bs).partDataSize then none
      else some ((bs.drop start).take (parse bs).partDataSize)
    else decodedChunks z b (parse bs).compressionType (parse bs).numChunksInPart (bs.drop start)

/-! The loops. -/

/-- `total_written` is the length of the file. -/
structure Output.Tallied (o : Output) : Prop where
  total : o.totalWritten = o.file.length
  room : o.file.length ≤ maxFile

/-- The pass went through and put the bytes into the file. -/
structure Wrote (o : Output) (bs : List UInt8) (r : Int × Output) : Prop where
  file : r.2.file = o.file ++ bs
  tallied : r.2.Tallied

variable {z : Miniz} {c : Console} {o : Output} {bs : List UInt8}

theorem Output.Tallied.polled (h : o.Tallied) : o.polled.Tallied := ⟨h.total, h.room⟩

theorem put_wrote (h : o.Tallied) {short : Int} (hshort : short ≠ 0) (hr : (o.put c short bs).1 = 0) :
    Wrote o bs (o.put c short bs) := by
  unfold Output.put at hr ⊢
  dsimp only at hr ⊢
  by_cases hn : min bs.length (min (c.takes o.writes) (maxFile - o.file.length)) = bs.length
  · have hroom := h.room
    rw [if_neg (fun hne => hne hn), hn, List.take_length]
    refine ⟨rfl, ?_, ?_⟩
    · show (o.totalWritten + bs.length) % 2 ^ 64 = (o.file ++ bs).length
      rw [h.total, List.length_append, Nat.mod_eq_of_lt]
      unfold maxFile at hn hroom
      omega
    · show (o.file ++ bs).length ≤ maxFile
      rw [List.length_append]
      omega
  · rw [if_pos hn] at hr
    exact absurd hr hshort

theorem Wrote.trans {r r' : Int × Output} {bs' : List UInt8} (h : Wrote o bs r) (h' : Wrote r.2 bs' r') :
    Wrote o (bs ++ bs') r' :=
  ⟨by rw [h'.file, h.file, List.append_assoc], h'.tallied⟩

theorem Wrote.of_polled {r : Int × Output} (h : Wrote o.polled bs r) : Wrote o bs r :=
  ⟨h.file, h.tallied⟩

theorem Wrote.nothing (h : o.Tallied) : Wrote o [] (0, o) := ⟨(List.append_nil _).symm, h⟩

/-- What the model without failing calls sees of the output. -/
def Output.writer (o : Output) : Writer := ⟨o.file, o.polls⟩

theorem put_writer (h : o.Tallied) {short : Int} (hshort : short ≠ 0)
    (hr : (o.polled.put c short bs).1 = 0) : (o.polled.put c short bs).2.writer = o.writer.put bs := by
  have hpolls : (o.polled.put c short bs).2.polls = o.polls + 1 := by
    unfold Output.put
    dsimp only
    split_ifs <;> rfl
  unfold Output.writer Writer.put
  rw [(put_wrote h.polled hshort hr).file, hpolls]
  rfl

theorem refused {e : Int} (he : e ≠ 0) : ¬(e, o).1 = 0 := he

theorem rawSlice_wrote {cap : Nat} (n left : Nat) (input : List UInt8) (o : Output) (h : o.Tallied)
    (hn : left ≤ n) (hr : (rawSlice c cap n left input o).1 = 0) :
    left ≤ input.length ∧ Wrote o (input.take left) (rawSlice c cap n left input o) ∧
      MultipartDecompress.rawSlice c.cancel cap n left input o.writer =
        .ok (rawSlice c cap n left input o).2.writer := by
  induction n generalizing left input o with
  | zero =>
    obtain rfl := Nat.le_zero.mp hn
    exact ⟨Nat.zero_le _, .nothing h, rfl⟩
  | succ n ih =>
    unfold rawSlice at hr ⊢
    unfold MultipartDecompress.rawSlice
    by_cases h0 : left = 0
    · rw [if_pos h0, if_pos h0, h0]
      exact ⟨Nat.zero_le _, .nothing h, rfl⟩
    · rw [if_neg h0] at hr ⊢
      rw [if_neg h0]
      by_cases hc : c.cancel o.polls = true
      · rw [if_pos hc] at hr
        exact absurd hr (refused (by decide))
      · have hw : ¬c.cancel o.writer.polls = true := hc
        rw [if_neg hc] at hr ⊢
        rw [if_neg hw]
        dsimp only at hr ⊢
        by_cases hnil : input.take (min left cap) = []
        · rw [if_pos hnil] at hr
          exact absurd hr (refused (by decide))
        · rw [if_neg hnil] at hr ⊢
          rw [if_neg hnil]
          by_cases hput : (o.polled.put c (-14) (input.take (min left cap))).1 = 0
          · rw [if_neg (fun hne => hne hput)] at hr ⊢
            have hfirst := put_wrote h.polled (by decide) hput
            have hpos := List.length_pos_iff.mpr hnil
            have hlen := List.length_take (i := min left cap) (l := input)
            obtain ⟨hle, hrest, hsame⟩ := ih _ _ _ hfirst.tallied (by omega) hr
            rw [List.length_drop] at hle
            have htake : input.take left = input.take (min left cap) ++
                (input.drop (input.take (min left cap)).length).take
                  (left - (input.take (min left cap)).length) := by
              have hcut : (input.take (min left cap)).length = min left cap := by omega
              rw [hcut, ← List.take_add]
              congr 1
              omega
            refine ⟨by omega, ?_, ?_⟩
            · rw [htake]
              exact (hfirst.trans hrest).of_polled
            · rw [← put_writer h (by decide) hput]
              exact hsame
          · rw [if_pos hput] at hr
            exact absurd hr hput

theorem decodeChunk_error {compressionType cap : Nat} {chdr : MultipartDecompress.ChunkHeader} {e : Int}
    (h : decodeChunk z compressionType cap chdr bs = .error e) : e ≠ 0 := by
  unfold decodeChunk at h
  split_ifs at h
  · cases h
    decide
  · cases h
    decide
  · split at h
    · cases h
      decide
    · split_ifs at h
      · cases h
        decide
      · cases h
        decide

theorem startPayload_error {h : Header} {e : Int} (he : startPayload h = .error e) : e ≠ 0 := by
  unfold startPayload at he
  split_ifs at he
  cases he
  decide

theorem chunkLoop_wrote {b : Buffers} {compressionType : Nat} (n : Nat) (input : List UInt8) (o : Output)
    (h : o.Tallied) (hr : (chunkLoop z c b compressionType n input o).1 = 0) :
    ∃ out, decodedChunks z b compressionType n input = some out ∧
      Wrote o out (chunkLoop z c b compressionType n input o) ∧
      MultipartDecompress.chunkLoop z c.cancel b compressionType n input o.writer =
        .ok (chunkLoop z c b compressionType n input o).2.writer := by
  induction n generalizing input o with
  | zero => exact ⟨[], rfl, .nothing h, rfl⟩
  | succ n ih =>
    unfold chunkLoop at hr ⊢
    unfold decodedChunks MultipartDecompress.chunkLoop
    by_cases hc : c.cancel o.polls = true
    · rw [if_pos hc] at hr
      exact absurd hr (refused (by decide))
    · have hw : ¬c.cancel o.writer.polls = true := hc
      rw [if_neg hc] at hr ⊢
      rw [if_neg hw]
      by_cases hlen : input.length < chunkHeaderSize
      · rw [if_pos hlen] at hr
        exact absurd hr (refused (by decide))
      · rw [if_neg hlen] at hr ⊢
        rw [if_neg hlen, if_neg hlen]
        dsimp only at hr ⊢
        by_cases hbuf : b.comp < (parseChunkHeader input).compressedSize ∨
            b.uncomp < (parseChunkHeader input).uncompressedSize
        · rw [if_pos hbuf] at hr
          exact absurd hr (refused (by decide))
        · rw [if_neg hbuf] at hr ⊢
          by_cases hbody : (input.drop chunkHeaderSize).length < (parseChunkHeader input).compressedSize
          · rw [if_pos hbody] at hr
            exact absurd hr (refused (by decide))
          · rw [if_neg hbody] at hr ⊢
            rw [if_neg (by tauto), if_neg hbuf, if_neg hbody]
            generalize hdecode : decodeChunk z compressionType b.uncomp (parseChunkHeader input)
              ((input.drop chunkHeaderSize).take (parseChunkHeader input).compressedSize) = decoded at hr ⊢
            cases decoded with
            | error e => exact absurd hr (decodeChunk_error hdecode)
            | ok out =>
              dsimp only at hr ⊢
              by_cases hput : (o.polled.put c (if compressionType = 0 then -14 else -17) out).1 = 0
              · rw [if_neg (fun hne => hne hput)] at hr ⊢
                have hfirst := put_wrote h.polled (by split_ifs <;> decide) hput
                obtain ⟨more, hmore, hrest, hsame⟩ := ih _ _ hfirst.tallied hr
                rw [hmore, ← put_writer h (by split_ifs <;> decide) hput]
                exact ⟨out ++ more, rfl, (hfirst.trans hrest).of_polled, hsame⟩
              · rw [if_pos hput] at hr
                exact absurd hr hput

theorem processPart_wrote {b : Buffers} {file : Option (List UInt8)} (h : o.Tallied)
    (hr : (processPart z c b file o).1 = 0) :
    ∃ bs slice, file = some bs ∧ decodedSlice z b bs = some slice ∧
      Wrote o slice (processPart z c b file o) ∧
      MultipartDecompress.processPart z c.cancel b file o.writer =
        .ok (processPart z c b file o).2.writer := by
  unfold processPart at hr ⊢
  unfold MultipartDecompress.processPart
  by_cases hc : c.cancel o.polls = true
  · rw [if_pos hc] at hr
    exact absurd hr (refused (by decide))
  · have hw : ¬c.cancel o.writer.polls = true := hc
    rw [if_neg hc] at hr ⊢
    rw [if_neg hw]
    cases file with
    | none => exact absurd hr (refused (by decide))
    | some bs =>
      dsimp only at hr ⊢
      by_cases hlen : bs.length < headerSize
      · rw [if_pos hlen] at hr
        exact absurd hr (refused (by decide))
      · rw [if_neg hlen] at hr ⊢
        rw [if_neg hlen]
        unfold decodedSlice
        generalize hstart : startPayload (parse bs) = payload at hr ⊢
        cases payload with
        | error e => exact absurd hr (startPayload_error hstart)
        | ok start =>
          dsimp only at hr ⊢
          by_cases hraw : (parse bs).numChunksInPart = 0 ∧ (parse bs).compressionType = 0
          · rw [if_pos hraw] at hr ⊢
            obtain ⟨hle, hwrote, hsame⟩ := rawSlice_wrote _ _ _ _ h.polled (Nat.le_refl _) hr
            refine ⟨bs, _, rfl, ?_, hwrote.of_polled, (if_pos hraw).trans hsame⟩
            rw [hstart]
            dsimp only
            rw [if_pos hraw, if_neg (Nat.not_lt.mpr hle)]
          · rw [if_neg hraw] at hr ⊢
            obtain ⟨out, hout, hwrote, hsame⟩ := chunkLoop_wrote _ _ _ h.polled hr
            refine ⟨bs, out, rfl, ?_, hwrote.of_polled, (if_neg hraw).trans hsame⟩
            rw [hstart]
            dsimp only
            rw [if_neg hraw, hout]

/-- The parts decode to these slices. -/
def Decoded (z : Miniz) (b : Buffers) (files : List (Option (List UInt8)))
    (slices : List (List UInt8)) : Prop :=
  files.map (fun file => file.bind (decodedSlice z b)) = slices.map some

theorem processParts_wrote {b : Buffers} (files : List (Option (List UInt8))) (o : Output) (h : o.Tallied)
    (hr : (processParts z c b files o).1 = 0) :
    ∃ slices, Decoded z b files slices ∧ Wrote o slices.flatten (processParts z c b files o) ∧
      MultipartDecompress.processParts z c.cancel b files o.writer =
        .ok (processParts z c b files o).2.writer := by
  induction files generalizing o with
  | nil => exact ⟨[], rfl, .nothing h, rfl⟩
  | cons file files ih =>
    unfold processParts at hr ⊢
    unfold MultipartDecompress.processParts
    dsimp only at hr ⊢
    by_cases hpart : (processPart z c b file o).1 = 0
    · rw [if_neg (fun hne => hne hpart)] at hr ⊢
      obtain ⟨bs, slice, rfl, hslice, hfirst, hstep⟩ := processPart_wrote h hpart
      obtain ⟨slices, hslices, hrest, hsame⟩ := ih _ hfirst.tallied hr
      refine ⟨slice :: slices, ?_, hfirst.trans hrest, ?_⟩
      · unfold Decoded at hslices ⊢
        rw [List.map_cons, List.map_cons, hslices, Option.bind_some, hslice]
      · rw [hstep]
        exact hsame
    · rw [if_pos hpart] at hr
      exact absurd hr hpart

/-! A run in which nothing gets in the way. -/

def working : Console := ⟨true, true, fun _ => false, fun _ => maxFile⟩

theorem put_working {short : Int} (hroom : o.file.length + bs.length ≤ maxFile) :
    (o.put working short bs).1 = 0 := by
  have hn : min bs.length (min (working.takes o.writes) (maxFile - o.file.length)) = bs.length := by
    show min bs.length (min maxFile (maxFile - o.file.length)) = bs.length
    omega
  unfold Output.put
  dsimp only
  rw [if_neg (fun hne => hne hn)]

theorem rawSlice_working {cap : Nat} (hcap : 0 < cap) (n left : Nat) (input : List UInt8) (o : Output)
    (h : o.Tallied) (hle : left ≤ input.length) (hroom : o.file.length + left ≤ maxFile) :
    (rawSlice working cap n left input o).1 = 0 := by
  induction n generalizing left input o with
  | zero => rfl
  | succ n ih =>
    unfold rawSlice
    by_cases h0 : left = 0
    · rw [if_pos h0]
    · rw [if_neg h0]
      dsimp only
      have hlen : (input.take (min left cap)).length = min left cap := by
        rw [List.length_take]
        omega
      have hput : (o.polled.put working (-14) (input.take (min left cap))).1 = 0 :=
        put_working (by show o.file.length + _ ≤ _; omega)
      have hfirst := put_wrote h.polled (by decide) hput
      have hfile : (o.polled.put working (-14) (input.take (min left cap))).2.file.length =
          o.file.length + min left cap := by
        rw [hfirst.file, List.length_append, hlen]
        rfl
      rw [if_neg (show ¬working.cancel o.polls = true from Bool.false_ne_true),
        if_neg (List.ne_nil_of_length_pos (by omega)), if_neg (fun hne => hne hput)]
      refine ih _ _ _ hfirst.tallied ?_ ?_
      · rw [List.length_drop]
        omega
      · omega

theorem chunkLoop_working {b : Buffers} {compressionType : Nat} (n : Nat) (input : List UInt8) (o : Output)
    (h : o.Tallied) {out : List UInt8} (hout : decodedChunks z b compressionType n input = some out)
    (hroom : o.file.length + out.length ≤ maxFile) :
    (chunkLoop z working b compressionType n input o).1 = 0 := by
  induction n generalizing input o out with
  | zero => rfl
  | succ n ih =>
    unfold decodedChunks at hout
    unfold chunkLoop
    rw [if_neg (show ¬working.cancel o.polls = true from Bool.false_ne_true)]
    by_cases hlen : input.length < chunkHeaderSize
    · rw [if_pos hlen] at hout
      cases hout
    · rw [if_neg hlen] at hout ⊢
      dsimp only at hout ⊢
      by_cases hbad : b.comp < (parseChunkHeader input).compressedSize ∨
          b.uncomp < (parseChunkHeader input).uncompressedSize ∨
          (input.drop chunkHeaderSize).length < (parseChunkHeader input).compressedSize
      · rw [if_pos hbad] at hout
        cases hout
      · rw [if_neg hbad] at hout
        rw [if_neg (by tauto), if_neg (by tauto)]
        generalize decodeChunk z compressionType b.uncomp (parseChunkHeader input)
          ((input.drop chunkHeaderSize).take (parseChunkHeader input).compressedSize) = decoded at hout ⊢
        cases decoded with
        | error e => cases hout
        | ok chunk =>
          dsimp only at hout ⊢
          obtain ⟨more, hmore, rfl⟩ := Option.map_eq_some_iff.mp hout
          rw [List.length_append] at hroom
          have hput : (o.polled.put working (if compressionType = 0 then -14 else -17) chunk).1 = 0 :=
            put_working (by show o.file.length + _ ≤ _; omega)
          have hfirst := put_wrote h.polled (by split_ifs <;> decide) hput
          rw [if_neg (fun hne => hne hput)]
          refine ih _ _ hfirst.tallied hmore ?_
          rw [hfirst.file, List.length_append]
          show o.file.length + chunk.length + more.length ≤ maxFile
          omega

theorem processPart_working {b : Buffers} (hb : 0 < b.uncomp) (hlen : headerSize ≤ bs.length)
    (h : o.Tallied) {slice : List UInt8} (hslice : decodedSlice z b bs = some slice)
    (hroom : o.file.length + slice.length ≤ maxFile) : (processPart z working b (some bs) o).1 = 0 := by
  unfold decodedSlice at hslice
  unfold processPart
  rw [if_neg (show ¬working.cancel o.polls = true from Bool.false_ne_true)]
  dsimp only
  rw [if_neg (Nat.not_lt.mpr hlen)]
  cases hstart : startPayload (parse bs) with
  | error e =>
    rw [hstart] at hslice
    cases hslice
  | ok start =>
    rw [hstart] at hslice
    dsimp only at hslice ⊢
    by_cases hraw : (parse bs).numChunksInPart = 0 ∧ (parse bs).compressionType = 0
    · rw [if_pos hraw] at hslice ⊢
      by_cases hshort : (bs.drop start).length < (parse bs).partDataSize
      · rw [if_pos hshort] at hslice
        cases hslice
      · rw [if_neg hshort] at hslice
        cases hslice
        rw [List.length_take, Nat.min_eq_left (Nat.le_of_not_lt hshort)] at hroom
        exact rawSlice_working hb _ _ _ _ h.polled (Nat.le_of_not_lt hshort) hroom
    · rw [if_neg hraw] at hslice ⊢
      exact chunkLoop_working _ _ _ h.polled hslice hroom

theorem processParts_working {b : Buffers} (hb : 0 < b.uncomp) (files : List (Option (List UInt8)))
    (hlen : ∀ bs, some bs ∈ files → headerSize ≤ bs.length) (o : Output) (h : o.Tallied)
    {slices : List (List UInt8)} (hslices : Decoded z b files slices)
    (hroom : o.file.length + slices.flatten.length ≤ maxFile) :
    (processParts z working b files o).1 = 0 := by
  induction files generalizing o slices with
  | nil => rfl
  | cons file files ih =>
    cases slices with
    | nil => cases hslices
    | cons slice slices =>
      obtain ⟨hhead, htail⟩ := List.cons.inj hslices
      obtain ⟨bs, rfl, hslice⟩ := Option.bind_eq_some_iff.mp hhead
      rw [List.flatten_cons, List.length_append] at hroom
      have hpart := processPart_working hb (hlen bs List.mem_cons_self) h hslice (by omega)
      obtain ⟨bs', slice', hbs, hslice', hwrote, -⟩ := processPart_wrote h hpart
      cases hbs
      rw [hslice] at hslice'
      cases hslice'
      unfold processParts
      dsimp only
      rw [if_neg (fun hne => hne hpart)]
      refine ih (fun bs hbs => hlen bs (List.mem_cons_of_mem _ hbs)) _ hwrote.tallied htail ?_
      rw [hwrote.file, List.length_append]
      omega

/-! The pass over the headers. -/

/-- The sum of the slices as the headers give it. -/
def partsSum (hs : List Header) : Nat := (hs.map (·.partDataSize)).sum

theorem verifyParts_ok {numParts : Nat} {uuid : List UInt8} (i : Nat) (files : List (Option (List UInt8)))
    (sum total : Nat) (hsum : sum < 2 ^ 64) :
    verifyParts numParts uuid i files sum = .ok total ↔
      ∃ hs : List Header, files.map readHeader = hs.map .ok ∧
        (∀ j h, hs[j]? = some h → h.partIndex = i + j + 1 ∧ h.totalParts = numParts ∧ h.packageUuid = uuid) ∧
        total = (sum + partsSum hs) % 2 ^ 64 := by
  induction files generalizing i sum with
  | nil =>
    unfold verifyParts
    constructor
    · intro h
      cases h
      exact ⟨[], rfl, by simp, (Nat.mod_eq_of_lt hsum).symm⟩
    · rintro ⟨hs, hread, -, htotal⟩
      obtain rfl := List.map_eq_nil_iff.mp hread.symm
      rw [htotal, partsSum, List.map_nil, List.sum_nil, Nat.add_zero, Nat.mod_eq_of_lt hsum]
  | cons file files ih =>
    unfold verifyParts
    constructor
    · intro h
      cases hfile : readHeader file with
      | error e =>
        rw [hfile] at h
        cases h
      | ok hdr =>
        rw [hfile] at h
        dsimp only at h
        split_ifs at h with hnum huuid
        obtain ⟨hs, hread, hparts, htotal⟩ :=
          (ih (i + 1) ((sum + hdr.partDataSize) % 2 ^ 64) (Nat.mod_lt _ (by decide))).mp h
        refine ⟨hdr :: hs, by rw [List.map_cons, List.map_cons, hread, hfile], fun j p hp => ?_, ?_⟩
        · cases j with
          | zero =>
            cases hp
            exact ⟨by tauto, by tauto, by tauto⟩
          | succ j =>
            have hpart := hparts j p hp
            exact ⟨by omega, hpart.2⟩
        · rw [htotal, partsSum, partsSum, List.map_cons, List.sum_cons, Nat.mod_add_mod, Nat.add_assoc]
    · rintro ⟨hs, hread, hparts, htotal⟩
      cases hs with
      | nil => cases hread
      | cons hdr hs =>
        obtain ⟨hfile, hread⟩ := List.cons.inj hread
        obtain ⟨hindex, hnum, huuid⟩ := hparts 0 hdr rfl
        rw [hfile]
        dsimp only
        rw [if_neg (by tauto), if_neg (by tauto)]
        refine (ih (i + 1) _ (Nat.mod_lt _ (by decide))).mpr ⟨hs, hread, fun j p hp => ?_, ?_⟩
        · have hpart := hparts (j + 1) p hp
          exact ⟨by omega, hpart.2⟩
        · rw [htotal, partsSum, partsSum, List.map_cons, List.sum_cons, Nat.mod_add_mod, Nat.add_assoc]

theorem verifyParts_error {numParts : Nat} {uuid : List UInt8} {e : Int} (i : Nat)
    (files : List (Option (List UInt8))) (sum : Nat) (h : verifyParts numParts uuid i files sum = .error e) :
    e ≠ 0 := by
  induction files generalizing i sum with
  | nil => cases h
  | cons file files ih =>
    unfold verifyParts at h
    cases hfile : readHeader file with
    | error _ =>
      rw [hfile] at h
      cases h
      decide
    | ok hdr =>
      rw [hfile] at h
      dsimp only at h
      split_ifs at h
      · cases h
        decide
      · cases h
        decide
      · exact ih _ _ h

/-! All or nothing. -/

/-- The files are the parts of one package in their order, with these slices. -/
structure IsPackage (z : Miniz) (files : List (Option (List UInt8))) (first : Header)
    (others : List Header) (slices : List (List UInt8)) : Prop where
  read : files.map readHeader = (first :: others).map .ok
  numbered : ∀ i h, (first :: others)[i]? = some h → h.partIndex = i + 1 ∧ h.totalParts = files.length
  uuid : ∀ h ∈ others, h.packageUuid = first.packageUuid
  decoded : ∃ b, buffers first = some b ∧ Decoded z b files slices
  announced : ∀ h ∈ first :: others, h.totalPkgSize ≠ 0 → slices.flatten.length = h.totalPkgSize

/-- The whole package, or no file but the one that was there and was not opened. -/
structure AllOrNothing (z : Miniz) (files : List (Option (List UInt8))) (before : Option (List UInt8))
    (r : Outcome) : Prop where
  whole : r.result = 0 → ∃ first others slices, IsPackage z files first others slices ∧
    r.output = some slices.flatten
  nothing : r.result ≠ 0 → r.output = none ∨ r.output = before

/-- What is checked of the parts: not the number of the first one, and no length that a
later one announces. -/
structure Assembles (z : Miniz) (files : List (Option (List UInt8))) (first : Header)
    (others : List Header) (slices : List (List UInt8)) : Prop where
  read : files.map readHeader = (first :: others).map .ok
  counted : first.totalParts = files.length
  later : ∀ i h, others[i]? = some h →
    h.partIndex = i + 2 ∧ h.totalParts = files.length ∧ h.packageUuid = first.packageUuid
  sum : first.totalPkgSize ≠ 0 → partsSum (first :: others) % 2 ^ 64 ≠ 0 →
    partsSum (first :: others) % 2 ^ 64 = first.totalPkgSize
  decoded : ∃ b, buffers first = some b ∧ Decoded z b files slices
  length : first.totalPkgSize ≠ 0 → slices.flatten.length = first.totalPkgSize
  room : slices.flatten.length ≤ maxFile

variable {files : List (Option (List UInt8))} {before : Option (List UInt8)}

theorem Output.start_tallied : Output.start.Tallied := ⟨rfl, Nat.zero_le _⟩

theorem readHeader_length {hdr : Header} (h : readHeader (some bs) = .ok hdr) : headerSize ≤ bs.length := by
  unfold readHeader at h
  dsimp only at h
  split_ifs at h with hlen
  exact Nat.le_of_not_lt hlen

theorem readHeader_size {file : Option (List UInt8)} {hdr : Header} (h : readHeader file = .ok hdr) :
    hdr.partDataSize < 2 ^ 64 := by
  cases file with
  | none => cases h
  | some bs =>
    have hlen := readHeader_length h
    unfold readHeader at h
    dsimp only at h
    rw [if_neg (Nat.not_lt.mpr hlen)] at h
    split_ifs at h
    cases h
    exact (parse_inRange hlen).partDataSize

theorem buffers_pos {hdr : Header} {b : Buffers} (h : buffers hdr = some b) : 0 < b.uncomp := by
  unfold buffers at h
  dsimp only at h
  split_ifs at h <;> cases h <;> exact Nat.succ_pos _

theorem failed {e : Int} {out : Option (List UInt8)} (he : e ≠ 0) : ¬(⟨e, out⟩ : Outcome).result = 0 := he

/-- A run that returns 0 has checked what is checked and written the slices; without calls
that fail it is the run of the model without them. -/
theorem decompress_whole (h : (decompressToPkg z c files before).result = 0) :
    (∃ first others slices, Assembles z files first others slices ∧
      (decompressToPkg z c files before).output = some slices.flatten) ∧
    decompressToPkg z c files before = MultipartDecompress.decompressToPkg z files c.cancel := by
  unfold decompressToPkg at h ⊢
  unfold MultipartDecompress.decompressToPkg
  cases files with
  | nil => exact absurd h (failed (by decide))
  | cons file others =>
    dsimp only at h ⊢
    cases hfile : readHeader file with
    | error e =>
      rw [hfile] at h
      exact absurd h (failed (by decide))
    | ok first =>
      rw [hfile] at h
      dsimp only at h ⊢
      by_cases hcount : first.totalParts ≠ (file :: others).length
      · rw [if_pos hcount] at h
        exact absurd h (failed (by decide))
      rw [if_neg hcount] at h ⊢
      rw [if_neg hcount]
      cases hverify : verifyParts (file :: others).length first.packageUuid 1 others first.partDataSize with
      | error e =>
        rw [hverify] at h
        exact absurd h (failed (verifyParts_error _ _ _ hverify))
      | ok sum =>
        rw [hverify] at h
        dsimp only at h ⊢
        by_cases hsum : 0 < first.totalPkgSize ∧ sum ≠ 0 ∧ sum ≠ first.totalPkgSize
        · rw [if_pos hsum] at h
          exact absurd h (failed (by decide))
        rw [if_neg hsum] at h ⊢
        rw [if_neg hsum]
        by_cases hopens : c.opens = false
        · rw [if_pos hopens] at h
          exact absurd h (failed (by decide))
        rw [if_neg hopens] at h ⊢
        cases hbuffers : buffers first with
        | none =>
          rw [hbuffers] at h
          exact absurd h (failed (by decide))
        | some b =>
          rw [hbuffers] at h
          dsimp only at h ⊢
          by_cases halloc : c.allocates = false
          · rw [if_pos halloc] at h
            exact absurd h (failed (by decide))
          rw [if_neg halloc] at h ⊢
          by_cases hparts : (processParts z c b (file :: others) Output.start).1 ≠ 0
          · rw [if_pos hparts] at h
            exact absurd h (failed hparts)
          rw [if_neg hparts] at h ⊢
          obtain ⟨slices, hslices, hwrote, hsame⟩ :=
            processParts_wrote _ _ Output.start_tallied (not_not.mp hparts)
          have htotal : (processParts z c b (file :: others) Output.start).2.totalWritten =
              slices.flatten.length := by
            rw [hwrote.tallied.total, hwrote.file]
            rfl
          by_cases hlen : 0 < first.totalPkgSize ∧
              (processParts z c b (file :: others) Output.start).2.totalWritten ≠ first.totalPkgSize
          · rw [if_pos hlen] at h
            exact absurd h (failed (by decide))
          rw [if_neg hlen]
          obtain ⟨hs, hread, hlater, rfl⟩ :=
            (verifyParts_ok 1 others _ sum (readHeader_size hfile)).mp hverify
          have hroom := hwrote.tallied.room
          rw [hwrote.file] at hroom
          refine ⟨⟨first, hs, slices,
            ⟨?_, not_not.mp hcount, ?_, ?_, ⟨b, hbuffers, hslices⟩, ?_, hroom⟩, ?_⟩, ?_⟩
          · rw [List.map_cons, List.map_cons, hfile, hread]
          · intro i p hp
            have hpart := hlater i p hp
            exact ⟨by omega, hpart.2⟩
          · intro hpos hne
            by_contra hdiff
            exact hsum ⟨Nat.pos_of_ne_zero hpos, hne, hdiff⟩
          · intro hpos
            by_contra hdiff
            exact hlen ⟨Nat.pos_of_ne_zero hpos, htotal.trans_ne hdiff⟩
          · rw [hwrote.file]
            rfl
          · have hrun : MultipartDecompress.processParts z c.cancel b (file :: others) ⟨[], 0⟩ =
                .ok (processParts z c b (file :: others) Output.start).2.writer := hsame
            have hlength : (processParts z c b (file :: others) Output.start).2.writer.out.length % 2 ^ 64 =
                (processParts z c b (file :: others) Output.start).2.totalWritten := by
              rw [hwrote.tallied.total]
              refine Nat.mod_eq_of_lt (Nat.lt_of_le_of_lt hwrote.tallied.room ?_)
              decide
            rw [hrun]
            dsimp only
            rw [hlength, if_neg hlen]
            rfl

theorem decompress_nothing (h : (decompressToPkg z c files before).result ≠ 0) :
    (decompressToPkg z c files before).output = none ∨
      (decompressToPkg z c files before).output = before := by
  revert h
  unfold decompressToPkg
  cases files with
  | nil => exact fun _ => Or.inr rfl
  | cons file others =>
    dsimp only
    cases readHeader file with
    | error e => exact fun _ => Or.inr rfl
    | ok first =>
      dsimp only
      split
      · exact fun _ => Or.inr rfl
      · cases verifyParts (file :: others).length first.packageUuid 1 others first.partDataSize with
        | error e => exact fun _ => Or.inr rfl
        | ok sum =>
          dsimp only
          split
          · exact fun _ => Or.inr rfl
          · split
            · exact fun _ => Or.inr rfl
            · cases buffers first with
              | none => exact fun _ => Or.inl rfl
              | some b =>
                dsimp only
                split
                · exact fun _ => Or.inl rfl
                · split
                  · exact fun _ => Or.inl rfl
                  · split
                    · exact fun _ => Or.inl rfl
                    · exact fun h => absurd rfl h

theorem decompress_working {first : Header} {others : List Header} {slices : List (List UInt8)}
    (h : Assembles z files first others slices) :
    decompressToPkg z working files before = ⟨0, some slices.flatten⟩ := by
  obtain ⟨hread, hcount, hlater, hsum, ⟨b, hbuffers, hslices⟩, hlength, hroom⟩ := h
  cases files with
  | nil => cases hread
  | cons file rest =>
    obtain ⟨hfile, hrest⟩ := List.cons.inj hread
    have hsize := readHeader_size hfile
    have hverify : verifyParts (file :: rest).length first.packageUuid 1 rest first.partDataSize =
        .ok (partsSum (first :: others) % 2 ^ 64) :=
      (verifyParts_ok 1 rest _ _ hsize).mpr ⟨others, hrest, fun i p hp => by
        have hpart := hlater i p hp
        exact ⟨by omega, hpart.2⟩, rfl⟩
    have hlen : ∀ bs, some bs ∈ file :: rest → headerSize ≤ bs.length := by
      intro bs hbs
      have hmem := List.mem_map_of_mem (f := readHeader) hbs
      rw [hread] at hmem
      obtain ⟨hdr, -, hhdr⟩ := List.mem_map.mp hmem
      exact readHeader_length hhdr.symm
    have hparts : (processParts z working b (file :: rest) Output.start).1 = 0 :=
      processParts_working (buffers_pos hbuffers) _ hlen _ Output.start_tallied hslices
        (by rw [show Output.start.file.length = 0 from rfl, Nat.zero_add]; exact hroom)
    obtain ⟨slices', hslices', hwrote, -⟩ := processParts_wrote _ _ Output.start_tallied hparts
    obtain rfl : slices' = slices :=
      List.map_injective_iff.mpr (fun _ _ => Option.some.inj) (hslices'.symm.trans hslices)
    have htotal : (processParts z working b (file :: rest) Output.start).2.totalWritten =
        slices'.flatten.length := by
      rw [hwrote.tallied.total, hwrote.file]
      rfl
    unfold decompressToPkg
    dsimp only
    rw [hfile]
    dsimp only
    rw [if_neg (fun hne => hne hcount), hverify]
    dsimp only
    rw [if_neg (fun hbad => hbad.2.2 (hsum (Nat.ne_of_gt hbad.1) hbad.2.1)),
      if_neg (show ¬working.opens = false from Bool.noConfusion), hbuffers]
    dsimp only
    rw [if_neg (show ¬working.allocates = false from Bool.noConfusion), if_neg (fun hne => hne hparts),
      if_neg (fun hbad => hbad.2 (htotal.trans (hlength (Nat.ne_of_gt hbad.1)))), hwrote.file]
    rfl

/-- The call is all or nothing on just the lists whose first file is part 1 and whose later
headers announce no other length, as far as the files are put together at all. -/
theorem all_or_nothing (z : Miniz) (files : List (Option (List UInt8))) :
    (∀ c before, AllOrNothing z files before (decompressToPkg z c files before)) ↔
      ∀ first others slices, Assembles z files first others slices →
        first.partIndex = 1 ∧ ∀ h ∈ others, h.totalPkgSize ≠ 0 → slices.flatten.length = h.totalPkgSize := by
  constructor
  · intro hall first others slices h
    have hworks : decompressToPkg z working files none = ⟨0, some slices.flatten⟩ := decompress_working h
    obtain ⟨first', others', slices', hpackage, hout⟩ := (hall working none).whole (by rw [hworks])
    have hsame : first' :: others' = first :: others :=
      List.map_injective_iff.mpr (fun _ _ => Except.ok.inj) (hpackage.read.symm.trans h.read)
    obtain ⟨rfl, rfl⟩ := List.cons.inj hsame
    rw [hworks] at hout
    have hflat := Option.some.inj hout
    refine ⟨(hpackage.numbered 0 _ rfl).1, fun p hp hpos => ?_⟩
    rw [hflat]
    exact hpackage.announced p (List.mem_cons_of_mem _ hp) hpos
  · intro hcond c before
    refine ⟨fun hzero => ?_, decompress_nothing⟩
    obtain ⟨⟨first, others, slices, h, hout⟩, -⟩ := decompress_whole hzero
    obtain ⟨hone, hannounced⟩ := hcond first others slices h
    refine ⟨first, others, slices, ⟨h.read, fun i p hp => ?_, fun p hp => ?_, h.decoded,
      fun p hp hpos => ?_⟩, hout⟩
    · cases i with
      | zero =>
        cases hp
        exact ⟨hone, h.counted⟩
      | succ i =>
        have hpart := h.later i p hp
        exact ⟨hpart.1, hpart.2.1⟩
    · obtain ⟨i, hi⟩ := List.mem_iff_getElem?.mp hp
      exact (h.later i p hi).2.2
    · cases List.mem_cons.mp hp with
      | inl hfirst =>
        rw [hfirst] at hpos ⊢
        exact h.length hpos
      | inr hother => exact hannounced p hother hpos

/-- The second of the two parts of four bytes, given twice. -/
def secondTwice : List (Option (List UInt8)) :=
  let ps := PkgSplit.partsInfo MultipartPackage.fiveMeta 4098 [1, 2, 3, 4]
  let part := ps[1]?.map (PkgSplit.partFile MultipartPackage.fiveMeta 4 ps)
  [part, part]

theorem all_or_nothing_fails :
    ¬∀ z files c before, AllOrNothing z files before (decompressToPkg z c files before) := by
  intro hall
  have hzero : (decompressToPkg ⟨fun _ => 0, fun _ _ => none⟩ working secondTwice none).result = 0 := by
    decide +kernel
  have htwo : (secondTwice.map readHeader)[0]?.map (fun r => r.toOption.map (·.partIndex)) =
      some (some 2) := by
    decide +kernel
  obtain ⟨first, others, slices, hpackage, -⟩ :=
    (hall ⟨fun _ => 0, fun _ _ => none⟩ secondTwice working none).whole hzero
  rw [hpackage.read] at htwo
  have hone := (hpackage.numbered 0 first rfl).1
  have htwo' : first.partIndex = 2 := Option.some.inj (Option.some.inj htwo)
  rw [hone] at htwo'
  exact absurd htwo' (by decide)

end PkgManager.MultipartAssembly
