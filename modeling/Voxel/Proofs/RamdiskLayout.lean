/-
Module: Voxel.Proofs.RamdiskLayout
Layer: Proofs
Purpose: Where the image writer puts a tree. Writing the records of a directory leaves its entries one
  after the other, each with its contents behind it and with the links that the reader follows; this is
  an induction over the tree that carries the position and the bytes outside.
Trusted boundary: none
Main exports: HostStream.entries, streamSize, WellFormedStream, EntryAt, LaidStream, createEntries_spec,
  mkvfs_spec
-/
import Voxel.Tool.Mkvfs

namespace Voxel.Proofs

open Voxel.Lib Voxel.Kernel Voxel.Tool

/-! ## Trees -/

/-- The records of a directory without `.` and `..`. -/
def entries : HostStream → List (CString × HostNode)
  | .nil => []
  | .cons name node rest => if IsSpecial name then entries rest else (name, node) :: entries rest

mutual

/-- The bytes that the contents of a node take in the image. -/
def nodeSize : HostNode → Nat
  | .regular bytes => bytes.length
  | .directory stream => streamSize stream
  | .other => 0

/-- The bytes that the entries of a directory and their contents take. -/
def streamSize : HostStream → Nat
  | .nil => 0
  | .cons name node rest =>
      if IsSpecial name then streamSize rest else entrySize + nodeSize node + streamSize rest

end

mutual

/-- Nothing but regular files and directories, and every directory has some record. -/
def WellFormedNode : HostNode → Prop
  | .regular _ => True
  | .directory stream => stream ≠ .nil ∧ WellFormedStream stream
  | .other => False

/-- The entries have names of at most 255 bytes. -/
def WellFormedStream : HostStream → Prop
  | .nil => True
  | .cons name node rest =>
      (¬ IsSpecial name → name.length ≤ 255 ∧ IsCString name ∧ WellFormedNode node) ∧
        WellFormedStream rest

end

/-! ## Entries -/

/-- The fields of an entry in memory. -/
structure EntryAt (mem : RamdiskMemory) (pos : Nat) (e : RamdiskEntry) : Prop where
  name : mem.entryName pos = e.name
  offset : mem.entryOffset pos = e.offset
  type : mem.entryType pos = e.type
  next : mem.entryNext pos = e.nextEntry
  target : mem.entryTarget pos = e.targetEntry
  size : mem.entryLength pos = e.size

/-- An entry whose fields fit. -/
structure EntryFits (e : RamdiskEntry) : Prop where
  name : e.name.length ≤ 255
  isString : IsCString e.name
  offset : e.offset < 2 ^ 32
  type : e.type < 2 ^ 8
  next : e.nextEntry < 2 ^ 32
  target : e.targetEntry < 2 ^ 32
  size : e.size < 2 ^ 32

/-- A field of `n` bytes at a place of an entry. -/
theorem field_of_bytes {mem : RamdiskMemory} {pos place n value : Nat}
    (bytes : ∀ k < n, mem (pos + (place + k)) = leByte value k) (fits : value < 256 ^ n) :
    leNat mem (pos + place) n = value := by
  rw [leNat_bytes (fun k inside => by rw [Nat.add_assoc]; exact bytes k inside),
    Nat.mod_eq_of_lt fits]

/-- The bytes of the name field, up to the terminator. -/
theorem name_of_bytes {mem : RamdiskMemory} {pos : Nat} {name : CString} (isString : IsCString name)
    (short : name.length ≤ 255) (letters : ∀ i < name.length, mem (pos + 1 + i) = charAt name i)
    (terminator : mem (pos + 1 + name.length) = nul) : mem.entryName pos = name := by
  have field : (List.range 256).map (fun i => mem (pos + 1 + i)) =
      name ++ nul :: ((List.range 256).map (fun i => mem (pos + 1 + i))).drop (name.length + 1) := by
    refine List.ext_getElem? fun i => ?_
    rcases Nat.lt_trichotomy i name.length with inName | atEnd | after
    · have letter := letters i inName
      rw [charAt, List.getD_eq_getElem _ _ inName] at letter
      rw [List.getElem?_append_left inName, List.getElem?_map,
        List.getElem?_range (by omega), List.getElem?_eq_getElem inName, Option.map_some, letter]
    · rw [List.getElem?_append_right (Nat.le_of_eq atEnd.symm), List.getElem?_map,
        List.getElem?_range (by omega), atEnd, Nat.sub_self, List.getElem?_cons_zero, Option.map_some,
        terminator]
    · obtain ⟨k, rfl⟩ := Nat.exists_eq_add_of_lt after
      rw [List.getElem?_append_right (by omega), show name.length + k + 1 - name.length = k + 1 by omega,
        List.getElem?_cons_succ, List.getElem?_drop]
      congr 1
      omega
  unfold RamdiskMemory.entryName cstringAt
  rw [List.drop_zero, field]
  exact takeWhile_isCString isString _

/-- The bytes of an entry are read as its fields. -/
theorem entryAt_of_bytes {mem : RamdiskMemory} {pos : Nat} {e : RamdiskEntry} {junk : Nat → BitVec 8}
    (bytes : ∀ i < entrySize, mem (pos + i) = e.byte junk i) (fits : EntryFits e) :
    EntryAt mem pos e := by
  unfold entrySize at bytes
  refine ⟨?_, ?_, ?_, ?_, ?_, ?_⟩
  · have short := fits.name
    refine name_of_bytes fits.isString fits.name (fun i inside => ?_) ?_
    · rw [Nat.add_assoc, bytes (1 + i) (by omega)]
      unfold RamdiskEntry.byte
      rw [if_neg (by omega), if_pos (by omega), Nat.add_sub_cancel_left, if_pos inside]
    · rw [Nat.add_assoc, bytes (1 + e.name.length) (by omega)]
      unfold RamdiskEntry.byte
      rw [if_neg (by omega), if_pos (by omega), Nat.add_sub_cancel_left, if_neg (Nat.lt_irrefl _),
        if_pos rfl]
  · refine field_of_bytes (fun k inside => ?_) fits.offset
    rw [bytes (257 + k) (by omega)]
    unfold RamdiskEntry.byte
    rw [if_neg (by omega), if_neg (by omega), if_pos (by omega), Nat.add_sub_cancel_left]
  · refine field_of_bytes (fun k inside => ?_) fits.type
    rw [bytes (261 + k) (by omega)]
    unfold RamdiskEntry.byte
    rw [if_neg (by omega), if_neg (by omega), if_neg (by omega), if_pos (by omega),
      Nat.add_sub_cancel_left]
  · refine field_of_bytes (fun k inside => ?_) fits.next
    rw [bytes (263 + k) (by omega)]
    unfold RamdiskEntry.byte
    rw [if_neg (by omega), if_neg (by omega), if_neg (by omega), if_neg (by omega), if_neg (by omega),
      if_pos (by omega), Nat.add_sub_cancel_left]
  · refine field_of_bytes (fun k inside => ?_) fits.target
    rw [bytes (267 + k) (by omega)]
    unfold RamdiskEntry.byte
    rw [if_neg (by omega), if_neg (by omega), if_neg (by omega), if_neg (by omega), if_neg (by omega),
      if_neg (by omega), if_pos (by omega), Nat.add_sub_cancel_left]
  · refine field_of_bytes (fun k inside => ?_) fits.size
    rw [bytes (271 + k) (by omega)]
    unfold RamdiskEntry.byte
    rw [if_neg (by omega), if_neg (by omega), if_neg (by omega), if_neg (by omega), if_neg (by omega),
      if_neg (by omega), if_neg (by omega), Nat.add_sub_cancel_left]

/-- Reading an entry depends on its bytes only. -/
theorem EntryAt.congr {mem mem' : RamdiskMemory} {pos : Nat} {e : RamdiskEntry}
    (entry : EntryAt mem pos e) (same : ∀ a, pos ≤ a → a < pos + entrySize → mem' a = mem a) :
    EntryAt mem' pos e := by
  unfold entrySize at same
  have fields : ∀ place n, place + n ≤ 275 → leNat mem' (pos + place) n = leNat mem (pos + place) n :=
    fun place n inside => leNat_congr fun k small => same _ (by omega) (by omega)
  refine ⟨?_, (fields 257 4 (by omega)).trans entry.offset, (fields 261 1 (by omega)).trans entry.type,
    (fields 263 4 (by omega)).trans entry.next, (fields 267 4 (by omega)).trans entry.target,
    (fields 271 4 (by omega)).trans entry.size⟩
  rw [← entry.name]
  unfold RamdiskMemory.entryName
  congr 1
  refine List.map_congr_left fun i inField => ?_
  rw [List.mem_range] at inField
  exact same _ (by omega) (by omega)

/-! ## The layout of a tree -/

/-- The type of the entry of a node. -/
def nodeType : HostNode → Nat
  | .directory _ => rdfsTypeDirectory
  | _ => rdfsTypeFile

/-- The size in the entry of a node: directories have none. -/
def nodeLength : HostNode → Nat
  | .regular bytes => bytes.length
  | _ => 0

/-- The link to the contents of a node: only directories with contents have one. -/
def nodeTarget (pos : Nat) : HostNode → Nat
  | .directory stream => if streamSize stream = 0 then 0 else pos + entrySize
  | _ => 0

/-- The link behind an entry: it is set if `readdir` returns another record. -/
def nextLink (pos : Nat) (node : HostNode) (rest : HostStream) : Nat :=
  if rest.more then pos + entrySize + nodeSize node else 0

/-- The entry of a record at a position. -/
def entryOf (pos : Nat) (name : CString) (node : HostNode) (rest : HostStream) : RamdiskEntry where
  name := name
  offset := pos
  type := nodeType node
  nextEntry := nextLink pos node rest
  targetEntry := nodeTarget pos node
  size := nodeLength node

mutual

/-- The contents of a node are at a position. -/
def LaidNode (mem : RamdiskMemory) : HostNode → Nat → Prop
  | .regular bytes, pos => ∀ i < bytes.length, mem (pos + i) = charAt bytes i
  | .directory stream, pos => LaidStream mem stream pos
  | .other, _ => True

/-- The entries of a directory are at a position, each with its contents behind it. -/
def LaidStream (mem : RamdiskMemory) : HostStream → Nat → Prop
  | .nil, _ => True
  | .cons name node rest, pos =>
      if IsSpecial name then LaidStream mem rest pos
      else
        EntryAt mem pos (entryOf pos name node rest) ∧ LaidNode mem node (pos + entrySize) ∧
          LaidStream mem rest (pos + entrySize + nodeSize node)

end

mutual

/-- The layout depends only on the bytes that it takes. -/
theorem LaidNode.congr {mem mem' : RamdiskMemory} :
    ∀ {node : HostNode} {pos : Nat}, LaidNode mem node pos →
      (∀ a, pos ≤ a → a < pos + nodeSize node → mem' a = mem a) → LaidNode mem' node pos
  | .regular bytes, pos, laid, same => by
      intro i inside
      rw [same (pos + i) (by omega) (by rw [nodeSize]; omega)]
      exact laid i inside
  | .directory stream, pos, laid, same => by
      unfold LaidNode at laid ⊢
      unfold nodeSize at same
      exact LaidStream.congr laid same
  | .other, _, _, _ => trivial

/-- The layout depends only on the bytes that it takes. -/
theorem LaidStream.congr {mem mem' : RamdiskMemory} :
    ∀ {stream : HostStream} {pos : Nat}, LaidStream mem stream pos →
      (∀ a, pos ≤ a → a < pos + streamSize stream → mem' a = mem a) → LaidStream mem' stream pos
  | .nil, _, _, _ => trivial
  | .cons name node rest, pos, laid, same => by
      unfold LaidStream at laid ⊢
      unfold streamSize at same
      by_cases special : IsSpecial name
      · rw [if_pos special] at laid same ⊢
        exact LaidStream.congr laid same
      · rw [if_neg special] at laid same ⊢
        obtain ⟨entry, contents, behind⟩ := laid
        exact ⟨entry.congr fun a low high => same a low (by omega),
          LaidNode.congr contents fun a low high => same a (by omega) (by omega),
          LaidStream.congr behind fun a low high => same a (by omega) (by omega)⟩

end

/-! ## Writing -/

/-- A file after `n` bytes were written at its position. -/
structure Wrote (f f' : OutFile) (n : Nat) : Prop where
  pos : f'.pos = f.pos + n
  outside : ∀ a, a < f.pos ∨ f.pos + n ≤ a → f'.bytes a = f.bytes a
  short : f'.length ≤ max f.length (f.pos + n)
  long : f.pos + n ≤ max f'.length f.pos
  grows : f.length ≤ f'.length

theorem Wrote.refl (f : OutFile) : Wrote f f 0 :=
  ⟨rfl, fun _ _ => rfl, Nat.le_max_left _ _, Nat.le_max_right _ _, Nat.le_refl _⟩

theorem Wrote.trans {f f' f'' : OutFile} {n m : Nat} (first : Wrote f f' n) (second : Wrote f' f'' m) :
    Wrote f f'' (n + m) := by
  obtain ⟨pos, outside, short, long, grows⟩ := first
  obtain ⟨pos', outside', short', long', grows'⟩ := second
  refine ⟨by omega, ?_, by omega, by omega, by omega⟩
  intro a apart
  rw [outside' a (by omega), outside a (by omega)]

theorem wrote_fwrite (f : OutFile) (n : Nat) (data : Nat → BitVec 8) : Wrote f (f.fwrite n data) n :=
  ⟨rfl, fun _ => OutFile.fwrite_outside, Nat.le_refl _, by
    rw [OutFile.fwrite]
    exact Nat.le_trans (Nat.le_max_right _ _) (Nat.le_max_left _ _), Nat.le_max_left _ _⟩

/-- Copying a file through the buffer writes its bytes. -/
theorem copyContent_spec {fuel : Nat} {bytes : List (BitVec 8)} {size : Nat} {f : OutFile}
    (enough : bytes.length ≤ fuel) (small : size + bytes.length < 2 ^ 32) :
    (copyContent fuel bytes size f).1 = size + bytes.length ∧
      Wrote f (copyContent fuel bytes size f).2 bytes.length ∧
      ∀ i < bytes.length, (copyContent fuel bytes size f).2.bytes (f.pos + i) = charAt bytes i := by
  induction fuel generalizing bytes size f with
  | zero =>
      have empty : bytes.length = 0 := by omega
      rw [copyContent, empty]
      exact ⟨rfl, .refl f, fun i inside => absurd inside (Nat.not_lt_zero i)⟩
  | succ fuel inductionHypothesis =>
      rw [copyContent]
      by_cases none : min bufferSize bytes.length = 0
      · have empty : bytes.length = 0 := by
          unfold bufferSize at none
          omega
        rw [if_pos none, empty]
        exact ⟨rfl, .refl f, fun i inside => absurd inside (Nat.not_lt_zero i)⟩
      · rw [if_neg none]
        generalize chunk : min bufferSize bytes.length = n at none ⊢
        have inside : n ≤ bytes.length := by omega
        have left : (bytes.drop n).length = bytes.length - n := List.length_drop
        have fits : cut32 (size + n) = size + n := Nat.mod_eq_of_lt (by omega)
        obtain ⟨total, wrote, content⟩ := @inductionHypothesis (bytes.drop n) (cut32 (size + n))
          (f.fwrite n fun i => charAt bytes i) (by omega) (by omega)
        have both := (wrote_fwrite f n fun i => charAt bytes i).trans wrote
        rw [show n + (bytes.drop n).length = bytes.length by omega] at both
        refine ⟨by omega, both, ?_⟩
        intro i small
        by_cases early : i < n
        · rw [wrote.outside (f.pos + i) (Or.inl (by rw [OutFile.fwrite_pos]; omega)),
            OutFile.fwrite_inside early]
        · have later := content (i - n) (by omega)
          rw [OutFile.fwrite_pos, show f.pos + n + (i - n) = f.pos + i by omega] at later
          rw [later, charAt, charAt, List.getD_eq_getElem?_getD, List.getD_eq_getElem?_getD,
            List.getElem?_drop, show n + (i - n) = i by omega]

/-- The entry that the program writes for a record. -/
theorem childEntry_eq {pos : Nat} {name : CString} {node : HostNode} {rest : HostStream}
    (wellFormed : WellFormedNode node) (small : pos + entrySize + nodeSize node < 2 ^ 32) :
    ({ name := name
       offset := cut32 pos
       type := nodeType node
       nextEntry := if rest.more then cut32 (cut32 pos + entrySize + nodeSize node) else 0
       targetEntry :=
        if nodeType node = rdfsTypeDirectory ∧ nodeSize node ≠ 0 then cut32 (cut32 pos + entrySize) else 0
       size := if nodeType node = rdfsTypeDirectory then 0 else nodeSize node } : RamdiskEntry) =
      entryOf pos name node rest := by
  have here : cut32 pos = pos := Nat.mod_eq_of_lt (by omega)
  have behind : cut32 (pos + entrySize) = pos + entrySize := Nat.mod_eq_of_lt (by omega)
  have after : cut32 (pos + entrySize + nodeSize node) = pos + entrySize + nodeSize node :=
    Nat.mod_eq_of_lt small
  rw [here, behind, after]
  unfold entryOf
  congr 1
  · cases node with
    | regular bytes => rfl
    | directory stream =>
        change (if rdfsTypeDirectory = rdfsTypeDirectory ∧ streamSize stream ≠ 0 then pos + entrySize
          else 0) = if streamSize stream = 0 then 0 else pos + entrySize
        by_cases empty : streamSize stream = 0
        · rw [if_neg fun both => both.2 empty, if_pos empty]
        · rw [if_pos ⟨rfl, empty⟩, if_neg empty]
    | other =>
        unfold WellFormedNode at wellFormed
        exact wellFormed.elim
  · cases node with
    | regular bytes => rfl
    | directory stream => rfl
    | other =>
        unfold WellFormedNode at wellFormed
        exact wellFormed.elim

theorem entryOf_fits {pos : Nat} {name : CString} {node : HostNode} {rest : HostStream}
    (short : name.length ≤ 255) (isString : IsCString name)
    (small : pos + entrySize + nodeSize node < 2 ^ 32) : EntryFits (entryOf pos name node rest) := by
  unfold entrySize at small
  refine ⟨short, isString, ?_, ?_, ?_, ?_, ?_⟩
  · change pos < 2 ^ 32
    omega
  · cases node with
    | directory => exact (by decide : rdfsTypeDirectory < 2 ^ 8)
    | regular => exact (by decide : rdfsTypeFile < 2 ^ 8)
    | other => exact (by decide : rdfsTypeFile < 2 ^ 8)
  · change nextLink pos node rest < 2 ^ 32
    unfold nextLink entrySize
    split <;> omega
  · cases node with
    | directory stream =>
        change (if streamSize stream = 0 then 0 else pos + entrySize) < 2 ^ 32
        unfold entrySize
        split <;> omega
    | regular => exact (by decide : (0 : Nat) < 2 ^ 32)
    | other => exact (by decide : (0 : Nat) < 2 ^ 32)
  · cases node with
    | regular bytes =>
        change bytes.length < 2 ^ 32
        unfold nodeSize at small
        omega
    | directory => exact (by decide : (0 : Nat) < 2 ^ 32)
    | other => exact (by decide : (0 : Nat) < 2 ^ 32)

/-- Going back to write an entry in front of its contents. -/
theorem backPatch_spec {f fc : OutFile} {size : Nat} {e : RamdiskEntry} {junk : Nat → BitVec 8}
    (wrote : Wrote (f.fseek (f.pos + entrySize)) fc size) (fits : EntryFits e) :
    Wrote f (((fc.fseek f.pos).fwrite entrySize (e.byte junk)).fseek fc.pos) (entrySize + size) ∧
      EntryAt (((fc.fseek f.pos).fwrite entrySize (e.byte junk)).fseek fc.pos).bytes f.pos e ∧
      ∀ a, f.pos + entrySize ≤ a →
        (((fc.fseek f.pos).fwrite entrySize (e.byte junk)).fseek fc.pos).bytes a = fc.bytes a := by
  obtain ⟨pos, outside, short, long, grows⟩ := wrote
  simp only [OutFile.fseek_pos, OutFile.fseek_bytes, OutFile.fseek_length] at pos outside short long grows
  have length : (((fc.fseek f.pos).fwrite entrySize (e.byte junk)).fseek fc.pos).length =
      max fc.length (f.pos + entrySize) := rfl
  have others : ∀ a, a < f.pos ∨ f.pos + entrySize ≤ a →
      (((fc.fseek f.pos).fwrite entrySize (e.byte junk)).fseek fc.pos).bytes a = fc.bytes a :=
    fun a apart => OutFile.fwrite_outside (f := fc.fseek f.pos) apart
  refine ⟨⟨?_, ?_, ?_, ?_, ?_⟩, ?_, ?_⟩
  · rw [OutFile.fseek_pos]
    omega
  · intro a apart
    rw [others a (by omega), outside a (by omega)]
  · rw [length]
    omega
  · rw [length]
    omega
  · rw [length]
    omega
  · exact entryAt_of_bytes (fun i inside => OutFile.fwrite_inside (f := fc.fseek f.pos) inside) fits
  · exact fun a behind => others a (Or.inr behind)

mutual

/-- Writing the contents of a node. -/
theorem createChild_spec (junk : Nat → Nat → BitVec 8) : ∀ (node : HostNode) (f : OutFile),
    WellFormedNode node → f.pos + nodeSize node < 2 ^ 32 →
    ∃ f', createChild junk node f = some (nodeType node, nodeSize node, f') ∧
      Wrote f f' (nodeSize node) ∧ LaidNode f'.bytes node f.pos
  | .regular bytes, f, _, small => by
      unfold nodeSize at small
      obtain ⟨total, wrote, content⟩ := @copyContent_spec bytes.length bytes 0 f (Nat.le_refl _)
        (by omega)
      refine ⟨(copyContent bytes.length bytes 0 f).2, ?_, wrote, content⟩
      unfold createChild nodeType nodeSize
      simp only [total, Nat.zero_add]
  | .directory .nil, f, wellFormed, _ => by
      unfold WellFormedNode at wellFormed
      exact absurd rfl wellFormed.1
  | .directory (.cons name node rest), f, wellFormed, small => by
      unfold WellFormedNode at wellFormed
      unfold nodeSize at small
      obtain ⟨f', created, wrote, laid⟩ := createEntries_spec junk (.cons name node rest) 0 f wellFormed.2
        small (by omega)
      refine ⟨f', ?_, wrote, laid⟩
      unfold createChild
      rw [created, Nat.zero_add]
      rfl
  | .other, _, wellFormed, _ => by
      unfold WellFormedNode at wellFormed
      exact wellFormed.elim

/-- Writing the records of a directory. -/
theorem createEntries_spec (junk : Nat → Nat → BitVec 8) :
    ∀ (stream : HostStream) (written : Nat) (f : OutFile), WellFormedStream stream →
    f.pos + streamSize stream < 2 ^ 32 → written + streamSize stream < 2 ^ 32 →
    ∃ f', createEntries junk stream written f = some (written + streamSize stream, f') ∧
      Wrote f f' (streamSize stream) ∧ LaidStream f'.bytes stream f.pos
  | .nil, written, f, _, _, _ => ⟨f, rfl, .refl f, trivial⟩
  | .cons name node rest, written, f, wellFormed, small, counted => by
      unfold WellFormedStream at wellFormed
      unfold streamSize at small counted
      unfold createEntries streamSize LaidStream
      by_cases special : IsSpecial name
      · rw [if_pos special] at small counted
        simp only [if_pos special]
        exact createEntries_spec junk rest written f wellFormed.2 small counted
      · rw [if_neg special] at small counted
        simp only [if_neg special]
        obtain ⟨short, isString, nodeWellFormed⟩ := wellFormed.1 special
        obtain ⟨fc, created, wrote, contents⟩ := createChild_spec junk node (f.fseek (f.pos + entrySize))
          nodeWellFormed (by rw [OutFile.fseek_pos]; omega)
        have here : cut32 f.pos = f.pos := Nat.mod_eq_of_lt (by omega)
        have count : cut32 (cut32 (written + entrySize) + nodeSize node) =
            written + entrySize + nodeSize node := by
          unfold cut32
          omega
        have back : cut32 fc.pos = fc.pos := by
          rw [wrote.pos, OutFile.fseek_pos]
          exact Nat.mod_eq_of_lt (by omega)
        have fits := @entryOf_fits f.pos name node rest short isString (by omega)
        obtain ⟨patched, entry, kept⟩ := @backPatch_spec f fc _ _ (junk f.pos) wrote fits
        have place := patched.pos
        obtain ⟨f', rested, behind, laid⟩ := createEntries_spec junk rest
          (written + entrySize + nodeSize node) _ wellFormed.2 (by rw [place]; omega) (by omega)
        refine ⟨f', ?_, ?_, ?_, ?_, ?_⟩
        · rw [created]
          dsimp only
          rw [childEntry_eq nodeWellFormed (by omega), here, count, back, rested]
          congr 2
          omega
        · exact patched.trans behind
        · exact entry.congr fun a low high => behind.outside a (Or.inl (by rw [place]; omega))
        · refine LaidNode.congr contents fun a low high => ?_
          change f.pos + entrySize ≤ a at low
          change a < f.pos + entrySize + nodeSize node at high
          rw [behind.outside a (Or.inl (by rw [place]; omega)), kept a low]
        · rw [show f.pos + entrySize + nodeSize node = f.pos + (entrySize + nodeSize node) by omega,
            ← place]
          exact laid

end

/-! ## The image -/

/-- The number of bytes of the image of a directory. -/
def imageSize (stream : HostStream) : Nat := headerSize + entrySize + streamSize stream

/-- The header, the root entry and the tree behind it. -/
structure ImageOf (mem : RamdiskMemory) (stream : HostStream) : Prop where
  signature : mem.headerSignature = rdfsSignature
  version : mem.headerVersion = 1
  size : mem.headerLength = imageSize stream
  root : mem.headerRootEntry = headerSize
  rootEntry : EntryAt mem headerSize rootEntry
  laid : LaidStream mem stream (headerSize + entrySize)

/-- The image holds for every memory that starts with its bytes. -/
theorem ImageOf.congr {mem mem' : RamdiskMemory} {stream : HostStream} (image : ImageOf mem stream)
    (same : ∀ a < imageSize stream, mem' a = mem a) : ImageOf mem' stream := by
  unfold imageSize headerSize at same
  have fields : ∀ place n, place + n ≤ 27 → leNat mem' place n = leNat mem place n :=
    fun place n inside => leNat_congr fun k small => same _ (by omega)
  refine ⟨(fields 0 2 (by omega)).trans image.signature, (fields 2 1 (by omega)).trans image.version,
    (fields 19 4 (by omega)).trans image.size, (fields 23 4 (by omega)).trans image.root,
    image.rootEntry.congr fun a _ high => same a ?_, LaidStream.congr image.laid fun a _ high => same a ?_⟩
  · unfold headerSize at high
    omega
  · unfold headerSize at high
    omega

/-- The bytes of a header are read as its fields. -/
theorem header_of_bytes {mem : RamdiskMemory} {label : CString} {size root : Nat}
    {junk : Nat → BitVec 8} (bytes : ∀ i < headerSize, mem i = headerByte label size root junk i)
    (sizeFits : size < 2 ^ 32) (rootFits : root < 2 ^ 32) :
    mem.headerSignature = rdfsSignature ∧ mem.headerVersion = 1 ∧ mem.headerLength = size ∧
      mem.headerRootEntry = root := by
  unfold headerSize at bytes
  have field : ∀ place n value, place + n ≤ 27 → value < 256 ^ n →
      (∀ k < n, headerByte label size root junk (place + k) = leByte value k) →
      leNat mem place n = value := by
    intro place n value inside fits same
    rw [leNat_bytes fun k small => (bytes (place + k) (by omega)).trans (same k small),
      Nat.mod_eq_of_lt fits]
  refine ⟨field 0 2 _ (by omega) (by decide) fun k small => ?_,
    field 2 1 1 (by omega) (by decide) fun k small => ?_,
    field 19 4 size (by omega) sizeFits fun k small => ?_,
    field 23 4 root (by omega) rootFits fun k small => ?_⟩
  · unfold headerByte
    rw [if_pos (by omega), Nat.zero_add]
  · unfold headerByte
    rw [if_neg (by omega), if_pos (by omega), Nat.add_sub_cancel_left]
  · unfold headerByte
    rw [if_neg (by omega), if_neg (by omega), if_neg (by omega), if_pos (by omega),
      Nat.add_sub_cancel_left]
  · unfold headerByte
    rw [if_neg (by omega), if_neg (by omega), if_neg (by omega), if_neg (by omega),
      Nat.add_sub_cancel_left]

/-- `main` writes the image of every directory that is small enough. -/
theorem mkvfs_spec (junk : Nat → Nat → BitVec 8) (label : CString) {stream : HostStream}
    (wellFormed : WellFormedStream stream) (someRecord : stream ≠ .nil)
    (small : imageSize stream < 2 ^ 32) :
    ∃ image, mkvfs junk label stream = some image ∧ image.length = imageSize stream ∧
      ImageOf image.bytes stream := by
  unfold imageSize at small ⊢
  have start := wrote_fwrite (OutFile.empty.fseek headerSize) entrySize (rootEntry.byte (junk headerSize))
  obtain ⟨f, created, wrote, laid⟩ := createEntries_spec junk stream 0
    ((OutFile.empty.fseek headerSize).fwrite entrySize (rootEntry.byte (junk headerSize))) wellFormed
    (by simpa using small) (by omega)
  have called : createDirectory junk stream
      ((OutFile.empty.fseek headerSize).fwrite entrySize (rootEntry.byte (junk headerSize))) =
        some (streamSize stream, f) := by
    cases stream with
    | nil => exact absurd rfl someRecord
    | cons name node rest =>
        rw [Nat.zero_add] at created
        exact created
  have size : cut32 (headerSize + entrySize + streamSize stream) =
      headerSize + entrySize + streamSize stream := Nat.mod_eq_of_lt small
  have rootFits : EntryFits rootEntry :=
    ⟨by decide, by unfold IsCString; decide, by decide, by decide, by decide, by decide, by decide⟩
  have before : EntryAt f.bytes headerSize rootEntry := by
    have bytes : ∀ i < entrySize, ((OutFile.empty.fseek headerSize).fwrite entrySize
        (rootEntry.byte (junk headerSize))).bytes (headerSize + i) =
          rootEntry.byte (junk headerSize) i :=
      fun i inside => OutFile.fwrite_inside (f := OutFile.empty.fseek headerSize) inside
    exact (entryAt_of_bytes bytes rootFits).congr fun a _ high => wrote.outside a (Or.inl high)
  refine ⟨(f.fseek 0).fwrite headerSize
    (headerByte label (headerSize + entrySize + streamSize stream) headerSize (junk 0)), ?_, ?_, ?_⟩
  · unfold mkvfs
    dsimp only
    rw [called]
    dsimp only
    rw [size]
  · obtain ⟨_, _, short, long, _⟩ := wrote
    have length : ((OutFile.empty.fseek headerSize).fwrite entrySize
      (rootEntry.byte (junk headerSize))).length = headerSize + entrySize := rfl
    have place : ((OutFile.empty.fseek headerSize).fwrite entrySize
      (rootEntry.byte (junk headerSize))).pos = headerSize + entrySize := rfl
    change max f.length (0 + headerSize) = _
    omega
  · have header : ∀ i < headerSize, ((f.fseek 0).fwrite headerSize
        (headerByte label (headerSize + entrySize + streamSize stream) headerSize (junk 0))).bytes i =
          headerByte label (headerSize + entrySize + streamSize stream) headerSize (junk 0) i := by
      intro i inside
      have here := @OutFile.fwrite_inside (f.fseek 0) headerSize i
        (headerByte label (headerSize + entrySize + streamSize stream) headerSize (junk 0)) inside
      rwa [OutFile.fseek_pos, Nat.zero_add] at here
    have behind : ∀ a, headerSize ≤ a → ((f.fseek 0).fwrite headerSize
        (headerByte label (headerSize + entrySize + streamSize stream) headerSize (junk 0))).bytes a =
          f.bytes a := by
      intro a after
      refine OutFile.fwrite_outside (Or.inr ?_)
      rw [OutFile.fseek_pos, Nat.zero_add]
      exact after
    obtain ⟨signature, version, length, root⟩ := header_of_bytes header small (by decide)
    exact ⟨signature, version, length, root, before.congr fun a low _ => behind a low,
      LaidStream.congr laid fun a low _ => behind a (Nat.le_trans (Nat.le_add_right _ _) low)⟩

end Voxel.Proofs
