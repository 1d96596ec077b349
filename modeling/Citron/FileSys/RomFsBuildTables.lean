/-
# The hash tables of a RomFS

The entries lie one behind the other in their table, so that each keeps the bytes that are written for it, and its hash field
has the head that its bucket had at that time. So the chain of every bucket ends and has the entries whose parent and name
have the hash of the bucket, each once, as long as the offsets fit into 32 bits (**`build_indexes`**).
-/
import Citron.Lib.HashChains
import Citron.FileSys.RomFsBuild

namespace Citron
namespace FileSys
namespace RomFsBuild

open Common Lib RomFs List RomFSBuildDirectoryContext

/-! ### What a hash table is for -/

/-- The offset of an entry, or none for the empty marker. -/
def unlessEmpty (offset : U32) : Option U32 := if offset = romfsEntryEmpty then none else some offset

namespace Tables

variable (t : Tables)

/-- The first entry of a bucket. -/
def head (b : ℕ) : Option U32 := unlessEmpty (t.buckets.getD b romfsEntryEmpty)

/-- The entry behind an entry of a chain, as it is in the hash field. -/
def next (widths : List ℕ) (offset : U32) : Option U32 := unlessEmpty (wordField (getEntry widths t.table offset.toNat).1 4)

/-- The bucket of a parent and a name. -/
def nameBucket (parent : U32) (name : List UInt8) : ℕ := (romfsCalcPathHash parent name 0 name.length).toNat % t.buckets.length

/-- Every entry is found by its parent and its name. -/
structure Indexes (widths : List ℕ) (entries : List Entry) : Prop where
  /-- Every entry has its place. -/
  distinct : (entries.map Entry.entryOffset).Nodup
  /-- The chain of a bucket ends, and has the entries whose parents and names are in the bucket, each once. -/
  chains : ∀ b < t.buckets.length, ∃ chain, Chained (t.next widths) (t.head b) chain ∧ chain.Nodup ∧
    (∀ offset ∈ chain, ∃ entry ∈ entries, entry.entryOffset = offset) ∧
    ∀ entry ∈ entries, entry.entryOffset ∈ chain ↔ t.nameBucket entry.parentOffset entry.name = b
  /-- An entry is read with its parent and its name. -/
  entries_read : ∀ entry ∈ entries, wordField (getEntry widths t.table entry.entryOffset.toNat).1 0 = entry.parentOffset ∧
    (getEntry widths t.table entry.entryOffset.toNat).2 = entry.name

end Tables

variable {widths : List ℕ} {t : Tables} {entry : Entry} {entries : List Entry} {table done rest more : List UInt8} {link : U32}

/-! ### Offsets -/

@[simp] theorem entryOffsets_length : ∀ (sizes : List ℕ) (offset : U32), (entryOffsets offset sizes).length = sizes.length
  | [], _ => rfl
  | _ :: sizes, _ => congrArg Nat.succ (entryOffsets_length sizes _)

theorem toNat_ofNat_of_lt {n : ℕ} (h : n < 2 ^ 32) : (BitVec.ofNat 32 n).toNat = n := by
  rw [BitVec.toNat_ofNat, Nat.mod_eq_of_lt h]

theorem entryOffsets_cons (d size : ℕ) (sizes : List ℕ) : entryOffsets (BitVec.ofNat 32 d) (size :: sizes) =
    BitVec.ofNat 32 d :: entryOffsets (BitVec.ofNat 32 (d + size)) sizes := by
  rw [entryOffsets, BitVec.ofNat_add]

/-- Without a wrap the offsets are inside the table, with room for what is there. -/
theorem entryOffsets_inside : ∀ {sizes : List ℕ} {d : ℕ}, d + sizes.sum ≤ 2 ^ 32 → (∀ size ∈ sizes, 0 < size) →
    ∀ place ∈ (entryOffsets (BitVec.ofNat 32 d) sizes).zip sizes,
      d ≤ place.1.toNat ∧ place.1.toNat + place.2 ≤ d + sizes.sum
  | [], _, _, _, place, h => nomatch h
  | size :: sizes, d, hsum, hpos, place, h => by
    obtain ⟨hsize, hpos⟩ := forall_mem_cons.mp hpos
    rw [sum_cons] at hsum ⊢
    rw [entryOffsets_cons, zip_cons_cons] at h
    rcases mem_cons.mp h with rfl | h
    · rw [toNat_ofNat_of_lt (by omega)]
      omega
    · have := entryOffsets_inside (by omega) hpos place h
      omega

theorem exists_place : ∀ {sizes : List ℕ} {offset x : U32}, x ∈ entryOffsets offset sizes →
    ∃ size ∈ sizes, (x, size) ∈ (entryOffsets offset sizes).zip sizes
  | [], _, _, h => nomatch h
  | size :: sizes, offset, x, h => by
    rw [entryOffsets] at h ⊢
    rw [zip_cons_cons]
    rcases mem_cons.mp h with rfl | h
    · exact ⟨size, mem_cons_self, mem_cons_self⟩
    · obtain ⟨size', hmem, hplace⟩ := exists_place h
      exact ⟨size', mem_cons_of_mem _ hmem, mem_cons_of_mem _ hplace⟩

theorem entryOffsets_nodup : ∀ {sizes : List ℕ} {d : ℕ}, d + sizes.sum ≤ 2 ^ 32 → (∀ size ∈ sizes, 0 < size) →
    (entryOffsets (BitVec.ofNat 32 d) sizes).Nodup
  | [], _, _, _ => nodup_nil
  | size :: sizes, d, hsum, hpos => by
    obtain ⟨hsize, hpos⟩ := forall_mem_cons.mp hpos
    rw [sum_cons] at hsum
    rw [entryOffsets_cons, nodup_cons]
    refine ⟨fun hmem => ?_, entryOffsets_nodup (by omega) hpos⟩
    obtain ⟨size', -, hplace⟩ := exists_place hmem
    have hge := (entryOffsets_inside (by omega) hpos _ hplace).1
    rw [toNat_ofNat_of_lt (by omega)] at hge
    omega

/-! ### The bytes of an entry -/

/-- An entry with the fields of its kind, whose name is in its path. -/
structure Entry.WellFormed (widths : List ℕ) (entry : Entry) : Prop where
  widths_eq : ∀ link, (entry.fields link).map Prod.fst = widths
  values_lt : ∀ link, ∀ f ∈ entry.fields link, f.2 < 256 ^ f.1
  parent_eq : ∀ link, field ((entry.fields link).map Prod.snd) 0 = entry.parentOffset.toNat
  link_eq : ∀ link, field ((entry.fields link).map Prod.snd) 4 = link.toNat
  nameSize_eq : ∀ link, field ((entry.fields link).map Prod.snd) 5 = entry.nameSize
  name_le : entry.curPathOfs + entry.nameSize ≤ entry.path.length
  path_lt : entry.path.length < fsMaxPath

def Entry.size (widths : List ℕ) (entry : Entry) : ℕ := widths.sum + alignedNameSize entry.nameSize

/-- The bytes that are written for an entry: its fields, its name, and zeros. -/
def Entry.bytes (entry : Entry) (link : U32) : List UInt8 :=
  packFields (entry.fields link) ++ entry.name ++ List.replicate (alignedNameSize entry.nameSize - entry.nameSize) 0

theorem copyInto_append (done rest bytes : List UInt8) :
    copyInto (done ++ rest) done.length bytes = done ++ bytes ++ rest.drop bytes.length := by
  rw [copyInto, take_left, drop_append, drop_eq_nil_of_le (Nat.le_add_right _ _), nil_append,
    Nat.add_sub_cancel_left]

namespace Entry.WellFormed

variable (h : entry.WellFormed widths)
include h

theorem name_length : entry.name.length = entry.nameSize := by
  have := h.name_le
  rw [Entry.name, length_take, length_drop]
  omega

theorem nameSize_le : entry.nameSize ≤ alignedNameSize entry.nameSize := by
  have hname := h.name_le
  have hpath := h.path_lt
  unfold fsMaxPath at hpath
  unfold alignedNameSize alignUp
  simp only
  split_ifs <;> omega

theorem fields_length (link : U32) : (packFields (entry.fields link)).length = widths.sum := by
  rw [packFields_length, h.widths_eq]

theorem bytes_length (link : U32) : (entry.bytes link).length = entry.size widths := by
  have := h.nameSize_le
  rw [Entry.bytes, length_append, length_append, h.fields_length, h.name_length, length_replicate, Entry.size]
  omega

/-- An entry is written behind what is there, over what comes next. -/
theorem writeEntry_table (htable : t.table = done ++ rest) (hoffset : entry.entryOffset.toNat = done.length) :
    (t.writeEntry entry).table =
      done ++ entry.bytes (t.buckets.getD (t.bucketOf entry) 0) ++ rest.drop (entry.size widths) := by
  have hle := h.nameSize_le
  have hname := h.name_length
  unfold Tables.writeEntry Entry.bytes
  dsimp only
  set link := t.buckets.getD (t.bucketOf entry) 0
  set fields := packFields (entry.fields link) with hfields
  have hlen : fields.length = widths.sum := h.fields_length link
  have hat : done.length + fields.length = (done ++ fields).length := length_append.symm
  rw [htable, hoffset, copyInto_append, hat, copyInto_append, append_assoc (done ++ fields), copyInto_append,
    drop_append, drop_replicate, length_replicate, drop_drop, drop_drop, hname]
  simp only [append_assoc]
  congr 4
  rw [hlen, Entry.size]
  congr 1
  omega

/-- An entry is read where its bytes are. -/
theorem getEntry_eq (hpos : 0 < widths.sum) {offset : ℕ} (hbytes : table.drop offset = entry.bytes link ++ more) :
    getEntry widths table offset = ((entry.fields link).map Prod.snd, entry.name) := by
  have hname := h.name_length
  have hlength := congrArg List.length hbytes
  rw [length_drop, length_append, h.bytes_length, Entry.size] at hlength
  have hle := h.nameSize_le
  have hfields : unpackFields widths (table.drop offset) = (entry.fields link).map Prod.snd := by
    rw [hbytes, Entry.bytes, append_assoc, append_assoc, ← h.widths_eq link]
    exact unpackFields_packFields _ _ (h.values_lt link)
  have hdrop : table.drop (offset + widths.sum) =
      entry.name ++ (List.replicate (alignedNameSize entry.nameSize - entry.nameSize) 0 ++ more) := by
    rw [← drop_drop, hbytes, Entry.bytes, append_assoc, append_assoc, ← h.fields_length link, drop_left]
  have hmin : min (offset + widths.sum + entry.nameSize) table.length - (offset + widths.sum) = entry.name.length := by
    omega
  unfold getEntry
  dsimp only
  rw [if_neg (by omega), hfields, h.nameSize_eq, hmin, hdrop, take_left]

end Entry.WellFormed

/-! ### The tables behind all entries -/

namespace Tables

@[simp] theorem writeEntry_length (t : Tables) (entry : Entry) : (t.writeEntry entry).buckets.length = t.buckets.length :=
  length_set

theorem writeEntry_head (hpos : 0 < t.buckets.length) (hoffset : entry.entryOffset ≠ romfsEntryEmpty) :
    (t.writeEntry entry).head = Function.update t.head (t.bucketOf entry) (some entry.entryOffset) := by
  have hlt : t.bucketOf entry < t.buckets.length := Nat.mod_lt _ hpos
  funext b
  change unlessEmpty ((t.buckets.set (t.bucketOf entry) entry.entryOffset).getD b romfsEntryEmpty) = _
  rw [getD_eq_getElem?_getD]
  rcases eq_or_ne b (t.bucketOf entry) with rfl | hne
  · rw [getElem?_set_self hlt, Function.update_self]
    exact if_neg hoffset
  · rw [getElem?_set_ne (Ne.symm hne), Function.update_of_ne hne, ← getD_eq_getElem?_getD]
    rfl

end Tables

/-- The entries, each with what it found in its bucket. -/
def linked : Tables → List Entry → List (Entry × U32)
  | _, [] => []
  | t, entry :: entries => (entry, t.buckets.getD (t.bucketOf entry) 0) :: linked (t.writeEntry entry) entries

theorem fst_linked : ∀ (entries : List Entry) (t : Tables), (linked t entries).map Prod.fst = entries
  | [], _ => rfl
  | entry :: entries, _ => congrArg (entry :: ·) (fst_linked entries _)

/-- The keys of the entries: their buckets and offsets. -/
def keys (t : Tables) (entries : List Entry) : List (ℕ × U32) := entries.map fun entry => (t.bucketOf entry, entry.entryOffset)

theorem keys_writeEntry (t : Tables) (entry : Entry) (entries : List Entry) :
    keys (t.writeEntry entry) entries = keys t entries := by
  unfold keys Tables.bucketOf
  simp only [Tables.writeEntry_length]

theorem foldl_writeEntry_length (entries : List Entry) (t : Tables) :
    (entries.foldl Tables.writeEntry t).buckets.length = t.buckets.length := by
  induction entries generalizing t with
  | nil => rfl
  | cons entry entries ih => rw [foldl_cons, ih, Tables.writeEntry_length]

theorem foldl_writeEntry_head (hpos : 0 < t.buckets.length) (hoffsets : ∀ entry ∈ entries, entry.entryOffset ≠ romfsEntryEmpty) :
    (entries.foldl Tables.writeEntry t).head = pushKeys t.head (keys t entries) := by
  induction entries generalizing t with
  | nil => rfl
  | cons entry entries ih =>
    obtain ⟨hoffset, hoffsets⟩ := forall_mem_cons.mp hoffsets
    rw [foldl_cons, ih (by rwa [Tables.writeEntry_length]) hoffsets, Tables.writeEntry_head hpos hoffset, keys_writeEntry]
    rfl

/-- The table is the bytes of the entries one after the other. -/
theorem foldl_writeEntry_table (hform : ∀ entry ∈ entries, entry.WellFormed widths) (htable : t.table = done ++ rest)
    (hoffsets : entries.map Entry.entryOffset = entryOffsets (BitVec.ofNat 32 done.length) (entries.map (Entry.size widths)))
    (hsum : done.length + (entries.map (Entry.size widths)).sum ≤ 2 ^ 32) (hpos : 0 < widths.sum) :
    (entries.foldl Tables.writeEntry t).table = done ++ (linked t entries).flatMap (fun p => p.1.bytes p.2) ++
      rest.drop (entries.map (Entry.size widths)).sum := by
  induction entries generalizing t done rest with
  | nil => simpa [linked] using htable
  | cons entry entries ih =>
    obtain ⟨hentry, hform⟩ := forall_mem_cons.mp hform
    rw [map_cons, map_cons, entryOffsets_cons] at hoffsets
    obtain ⟨hoffset, hoffsets⟩ := List.cons.inj hoffsets
    rw [map_cons, sum_cons] at hsum
    have hsize : 0 < entry.size widths := Nat.add_pos_left hpos _
    have hat : entry.entryOffset.toNat = done.length := by rw [hoffset, toNat_ofNat_of_lt (by omega)]
    have hwrite := hentry.writeEntry_table htable hat
    have hlength : (done ++ entry.bytes (t.buckets.getD (t.bucketOf entry) 0)).length = done.length + entry.size widths := by
      rw [length_append, hentry.bytes_length]
    have hrest := ih hform hwrite (by rw [hlength]; exact hoffsets) (by rw [hlength]; omega)
    rw [foldl_cons, hrest, linked, flatMap_cons, map_cons, sum_cons, drop_drop]
    simp only [append_assoc]

/-- The bytes of every entry are at its offset. -/
theorem drop_linked {l : List (Entry × U32)} (hform : ∀ p ∈ l, p.1.WellFormed widths)
    (hoffsets : l.map (fun p => p.1.entryOffset) = entryOffsets (BitVec.ofNat 32 done.length) (l.map fun p => p.1.size widths))
    (hsum : done.length + (l.map fun p => p.1.size widths).sum ≤ 2 ^ 32) (hpos : 0 < widths.sum) :
    ∀ p ∈ l, ∃ more, (done ++ l.flatMap (fun p => p.1.bytes p.2) ++ rest).drop p.1.entryOffset.toNat = p.1.bytes p.2 ++ more := by
  induction l generalizing done with
  | nil => exact fun p hp => nomatch hp
  | cons q l ih =>
    obtain ⟨hq, hform⟩ := forall_mem_cons.mp hform
    rw [map_cons, map_cons, entryOffsets_cons] at hoffsets
    obtain ⟨hoffset, hoffsets⟩ := List.cons.inj hoffsets
    rw [map_cons, sum_cons] at hsum
    have hsize : 0 < q.1.size widths := Nat.add_pos_left hpos _
    have hlength : (done ++ q.1.bytes q.2).length = done.length + q.1.size widths := by
      rw [length_append, hq.bytes_length]
    have hsplit : done ++ (q :: l).flatMap (fun p => p.1.bytes p.2) ++ rest =
        (done ++ q.1.bytes q.2) ++ l.flatMap (fun p => p.1.bytes p.2) ++ rest := by
      rw [flatMap_cons, ← append_assoc done]
    intro p hp
    rcases mem_cons.mp hp with rfl | hp
    · refine ⟨l.flatMap (fun p => p.1.bytes p.2) ++ rest, ?_⟩
      rw [hoffset, toNat_ofNat_of_lt (by omega), flatMap_cons, append_assoc, append_assoc, drop_left]
    · rw [hsplit]
      exact ih hform (by rw [hlength]; exact hoffsets) (by rw [hlength]; omega) p hp

theorem linksPushed_linked {next : U32 → Option U32} (hpos : 0 < t.buckets.length)
    (hoffsets : ∀ entry ∈ entries, entry.entryOffset ≠ romfsEntryEmpty)
    (hnext : ∀ p ∈ linked t entries, next p.1.entryOffset = unlessEmpty p.2) : LinksPushed next t.head (keys t entries) := by
  induction entries generalizing t with
  | nil => trivial
  | cons entry entries ih =>
    obtain ⟨hoffset, hoffsets⟩ := forall_mem_cons.mp hoffsets
    obtain ⟨hfirst, hnext⟩ := forall_mem_cons.mp hnext
    have hlt : t.bucketOf entry < t.buckets.length := Nat.mod_lt _ hpos
    have hhead : t.head (t.bucketOf entry) = unlessEmpty (t.buckets.getD (t.bucketOf entry) 0) := by
      unfold Tables.head
      rw [getD_eq_getElem _ _ hlt, getD_eq_getElem _ _ hlt]
    refine ⟨hfirst.trans hhead.symm, ?_⟩
    have hrest := ih (by rwa [Tables.writeEntry_length]) hoffsets hnext
    rwa [Tables.writeEntry_head hpos hoffset, keys_writeEntry] at hrest

/-! ### The hash of a name -/

theorem romfsCalcPathHash_name {path : List UInt8} {start n : ℕ} (parent : U32) (hle : start + n ≤ path.length)
    (hpath : path.length < fsMaxPath) :
    romfsCalcPathHash parent path start n = romfsCalcPathHash parent ((path.drop start).take n) 0 n := by
  unfold fsMaxPath at hpath
  refine foldl_ext _ _ _ fun hash i hi => ?_
  have hi : i < n := mem_range.mp hi
  have hname : ((path.drop start).take n).getD i 0 = path.getD (start + i) 0 := by
    rw [getD_eq_getElem?_getD, getD_eq_getElem?_getD, getElem?_take_of_lt hi, getElem?_drop]
  have hat : (start + i) % 2 ^ 32 = start + i := Nat.mod_eq_of_lt (by omega)
  have hat0 : (0 + i) % 2 ^ 32 = i := by rw [Nat.zero_add, Nat.mod_eq_of_lt (by omega)]
  rw [hat, hat0, hname]

theorem Entry.WellFormed.nameBucket_eq (h : entry.WellFormed widths) (t : Tables) :
    t.nameBucket entry.parentOffset entry.name = t.bucketOf entry := by
  have hhash := romfsCalcPathHash_name entry.parentOffset h.name_le h.path_lt
  unfold Tables.nameBucket Tables.bucketOf Entry.hash
  rw [h.name_length, hhash]
  rfl

/-! ### A populated table -/

/-- **Entries that lie one behind the other are indexed by their hash table.** -/
theorem populated_indexes {bucketCount : ℕ} (hcount : 0 < bucketCount) (hpos : 2 ≤ widths.sum)
    (hform : ∀ entry ∈ entries, entry.WellFormed widths)
    (hoffsets : entries.map Entry.entryOffset = entryOffsets 0 (entries.map (Entry.size widths)))
    (hsum : (entries.map (Entry.size widths)).sum ≤ 2 ^ 32) :
    (entries.foldl Tables.writeEntry (.initial bucketCount (entries.map (Entry.size widths)).sum)).Indexes widths entries := by
  set sizes := entries.map (Entry.size widths) with hsizes
  set t₀ := Tables.initial bucketCount sizes.sum
  set t := entries.foldl Tables.writeEntry t₀ with ht
  have hsizes_pos : ∀ size ∈ sizes, 2 ≤ size := by
    intro size hsize
    obtain ⟨entry, -, rfl⟩ := mem_map.mp hsize
    exact Nat.le_add_right_of_le hpos
  have hsize_pos : ∀ size ∈ sizes, 0 < size := fun size h => Nat.lt_of_lt_of_le Nat.two_pos (hsizes_pos size h)
  have hinside := entryOffsets_inside (d := 0) (by rwa [Nat.zero_add]) hsize_pos
  have hlength₀ : t₀.buckets.length = bucketCount := length_replicate
  have hlength : t.buckets.length = bucketCount := (foldl_writeEntry_length entries t₀).trans hlength₀
  have hempty : ∀ entry ∈ entries, entry.entryOffset ≠ romfsEntryEmpty := by
    intro entry hentry heq
    have hmem : entry.entryOffset ∈ entryOffsets (BitVec.ofNat 32 0) sizes := hoffsets ▸ mem_map_of_mem hentry
    obtain ⟨size, hsize, hplace⟩ := exists_place hmem
    have hlast := (hinside _ hplace).2
    have hsize := hsizes_pos size hsize
    have hvalue : romfsEntryEmpty.toNat = 2 ^ 32 - 1 := by decide
    rw [heq, hvalue] at hlast
    omega
  -- the bytes of the entries
  have htable : t.table = [] ++ (linked t₀ entries).flatMap (fun p => p.1.bytes p.2) ++
      (List.replicate sizes.sum 0).drop sizes.sum :=
    foldl_writeEntry_table hform rfl hoffsets (by rw [length_nil, Nat.zero_add]; exact hsum) (by omega)
  have hfst := fst_linked entries t₀
  have hform' : ∀ p ∈ linked t₀ entries, p.1.WellFormed widths := fun p hp => hform p.1 (hfst ▸ mem_map_of_mem hp)
  have hmap : ∀ {β : Type} (f : Entry → β), (linked t₀ entries).map (fun p => f p.1) = entries.map f := by
    intro β f
    conv_rhs => rw [← hfst, map_map]
    rfl
  have hread : ∀ p ∈ linked t₀ entries,
      getEntry widths t.table p.1.entryOffset.toNat = ((p.1.fields p.2).map Prod.snd, p.1.name) := by
    intro p hp
    obtain ⟨more, hmore⟩ := @drop_linked widths [] ((List.replicate sizes.sum 0).drop sizes.sum) _ hform'
      (by rw [hmap, hmap]; exact hoffsets) (by rw [hmap, length_nil, Nat.zero_add]; exact hsum) (by omega) p hp
    exact (hform' p hp).getEntry_eq (by omega) (by rw [htable]; exact hmore)
  -- the chains
  have hnext : ∀ p ∈ linked t₀ entries, t.next widths p.1.entryOffset = unlessEmpty p.2 := by
    intro p hp
    unfold Tables.next wordField
    rw [hread p hp, (hform' p hp).link_eq, BitVec.ofNat_toNat, BitVec.setWidth_eq]
  have hlinks := linksPushed_linked (by rw [hlength₀]; exact hcount) hempty hnext
  have hstart : ∀ b, Chained (t.next widths) (t₀.head b) ((fun _ => []) b) := by
    intro b
    change unlessEmpty ((List.replicate bucketCount romfsEntryEmpty).getD b romfsEntryEmpty) = none
    have hdefault : (List.replicate bucketCount romfsEntryEmpty).getD b romfsEntryEmpty = romfsEntryEmpty := by
      rw [getD_eq_getElem?_getD, getElem?_replicate]
      split_ifs <;> rfl
    rw [hdefault]
    exact if_pos rfl
  have hdistinct : (entries.map Entry.entryOffset).Nodup := by
    rw [hoffsets]
    exact entryOffsets_nodup (d := 0) (by rwa [Nat.zero_add]) hsize_pos
  refine ⟨hdistinct, fun b _ => ?_, fun entry hentry => ?_⟩
  · have hchain := chained_pushKeys hlinks hstart b
    rw [← foldl_writeEntry_head (by rw [hlength₀]; exact hcount) hempty, append_nil] at hchain
    refine ⟨keysOf (keys t₀ entries) b, hchain, hchain.nodup, fun offset hoffset => ?_, fun entry hentry => ?_⟩
    · obtain ⟨entry, hentry, heq⟩ := mem_map.mp (mem_keysOf.mp hoffset)
      exact ⟨entry, hentry, congrArg Prod.snd heq⟩
    · have hbucket : t.bucketOf entry = t₀.bucketOf entry := by
        unfold Tables.bucketOf
        rw [hlength, hlength₀]
      rw [mem_keysOf, (hform entry hentry).nameBucket_eq, hbucket]
      constructor
      · intro hmem
        obtain ⟨other, hother, heq⟩ := mem_map.mp hmem
        obtain ⟨hb, hoffset⟩ := Prod.mk.inj heq
        rw [← inj_on_of_nodup_map hdistinct hother hentry hoffset]
        exact hb
      · rintro rfl
        exact mem_map_of_mem hentry
  · obtain ⟨p, hp, rfl⟩ : ∃ p ∈ linked t₀ entries, p.1 = entry := mem_map.mp (hfst.symm ▸ hentry)
    rw [hread p hp]
    refine ⟨?_, rfl⟩
    unfold wordField
    rw [(hform' p hp).parent_eq, BitVec.ofNat_toNat, BitVec.setWidth_eq]

/-! ### The contexts of a tree -/

/-- The name of a context is the end of its path. -/
def Placed (path : List UInt8) (curPathOfs pathLen : ℕ) : Prop :=
  ∃ start ≤ path.length, curPathOfs = start % 2 ^ 32 ∧ pathLen = path.length % 2 ^ 32

structure AllPlaced (c : RomFSBuildContext) : Prop where
  directories : ∀ dir ∈ c.directories, Placed dir.path dir.curPathOfs dir.pathLen
  files : ∀ file ∈ c.files, Placed file.path file.curPathOfs file.pathLen

theorem Placed.child {dir : RomFSBuildDirectoryContext} (h : Placed dir.path dir.curPathOfs dir.pathLen) (name : List UInt8) :
    Placed (dir.childPath name) dir.childPathOfs (dir.childPathLen name) := by
  obtain ⟨start, -, -, hlen⟩ := h
  refine ⟨dir.path.length + 1, ?_, ?_, ?_⟩
  · rw [childPath, length_append, length_cons]
    omega
  · rw [childPathOfs, hlen]
    omega
  · rw [childPathLen, childPathOfs, hlen,
      childPath, length_append, length_cons]
    omega

section Visit

variable {patchIPS : VfsFile → VfsFile → Option VfsFile} {c : RomFSBuildContext} {parent : RomFSBuildDirectoryContext}

theorem AllPlaced.visitFiles (h : AllPlaced c) (hparent : Placed parent.path parent.curPathOfs parent.pathLen)
    (files : List (List UInt8 × VfsFile)) (ext : Option VfsDirectory) (number : ℕ) :
    AllPlaced (visitFiles patchIPS files ext number parent c) := by
  refine ⟨h.directories, fun file hfile => ?_⟩
  rcases mem_append.mp hfile with hfile | hfile
  · exact h.files file hfile
  · obtain ⟨source, -, rfl⟩ := mem_map.mp hfile
    exact hparent.child source.1

theorem AllPlaced.addDirectory (h : AllPlaced c) {dir : RomFSBuildDirectoryContext}
    (hdir : Placed dir.path dir.curPathOfs dir.pathLen) : AllPlaced { c with directories := c.directories ++ [dir] } := by
  refine ⟨fun other hother => ?_, h.files⟩
  rcases mem_append.mp hother with hother | hother
  · exact h.directories other hother
  · rwa [mem_singleton.mp hother]

mutual

theorem AllPlaced.visitDirectory : ∀ (dir : VfsDirectory) {ext : Option VfsDirectory} {number : ℕ}
    {parent : RomFSBuildDirectoryContext} {c : RomFSBuildContext}, AllPlaced c →
    Placed parent.path parent.curPathOfs parent.pathLen → AllPlaced (visitDirectory patchIPS dir ext number parent c)
  | .mk _ files subdirectories, ext, number, _, _, h, hparent => by
    rw [RomFsBuild.visitDirectory]
    exact AllPlaced.visitSubdirectories subdirectories (h.visitFiles hparent files ext number) hparent

theorem AllPlaced.visitSubdirectories : ∀ (dirs : List VfsDirectory) {ext : Option VfsDirectory} {number : ℕ}
    {parent : RomFSBuildDirectoryContext} {c : RomFSBuildContext}, AllPlaced c →
    Placed parent.path parent.curPathOfs parent.pathLen → AllPlaced (visitSubdirectories patchIPS dirs ext number parent c)
  | [], _, _, _, _, h, _ => by
    rw [RomFsBuild.visitSubdirectories]
    exact h
  | dir :: dirs, _, _, _, _, h, hparent => by
    rw [RomFsBuild.visitSubdirectories]
    split_ifs
    · exact AllPlaced.visitSubdirectories dirs h hparent
    · have hchild := hparent.child dir.name
      exact AllPlaced.visitSubdirectories dirs (AllPlaced.visitDirectory dir (h.addDirectory hchild) hchild) hparent

end

theorem new_allPlaced (base : VfsDirectory) (ext : Option VfsDirectory) : AllPlaced (.new patchIPS base ext) := by
  have hroot : Placed [] 0 0 := ⟨0, le_rfl, rfl, rfl⟩
  refine AllPlaced.visitDirectory base ⟨fun dir hdir => ?_, nofun⟩ hroot
  rw [mem_singleton.mp hdir]
  exact hroot

end Visit

/-- Where the paths are as short as the visit asserts, the lengths and indices of names do not wrap. -/
theorem Placed.name {path : List UInt8} {curPathOfs pathLen : ℕ} (h : Placed path curPathOfs pathLen)
    (hpath : path.length < fsMaxPath) : curPathOfs + nameSize curPathOfs pathLen ≤ path.length := by
  obtain ⟨start, hle, rfl, rfl⟩ := h
  unfold nameSize
  omega

/-- The paths are as short as `VisitDirectory` asserts, and the tables are at most as long as 32-bit offsets reach. -/
structure RomFSBuildContext.Fits (c : RomFSBuildContext) : Prop where
  directories : ∀ dir ∈ c.directories, dir.path.length < fsMaxPath
  files : ∀ file ∈ c.files, file.path.length < fsMaxPath
  dirTable : c.dirTableSize ≤ 2 ^ 32
  fileTable : c.fileTableSize ≤ 2 ^ 32

/-- The last field of an entry is the size of its name. -/
theorem field_last (a b c d e f : ℕ) : field [a, b, c, d, e, f] 5 = f := rfl

theorem toNat_lt_word (w : U32) : w.toNat < 256 ^ 4 := by
  omega

theorem nameSize_lt_word (curPathOfs pathLen : ℕ) : nameSize curPathOfs pathLen < 256 ^ 4 := by
  unfold nameSize
  omega

theorem romfsGetHashTableCount_pos (numEntries : ℕ) : 0 < romfsGetHashTableCount numEntries := by
  unfold romfsGetHashTableCount
  split_ifs with h3 h19
  · decide
  · exact Nat.lt_of_lt_of_le (by omega) Nat.left_le_or
  · have := (Nat.find_spec (exists_noSmallFactor numEntries)).1
    omega

namespace SortedContext

variable {c : RomFSBuildContext} (s : SortedContext c)

theorem fileEntries_offsets : s.fileEntries.map Entry.entryOffset = s.fileEntryOffsets := by
  have hlen : s.fileEntryOffsets.length ≤ s.files.zipIdx.length := by simp [fileEntryOffsets]
  rw [fileEntries, map_map]
  exact (map_snd_zip hlen)

theorem fileEntries_sizes : s.fileEntries.map (Entry.size fileWidths) = s.files.map RomFSBuildFileContext.entrySize := by
  have hlen : s.files.zipIdx.length ≤ s.fileEntryOffsets.length := by simp [fileEntryOffsets]
  calc s.fileEntries.map (Entry.size fileWidths)
      = ((s.files.zipIdx.zip s.fileEntryOffsets).map Prod.fst).map fun file => file.1.entrySize := by
        rw [fileEntries, map_map, map_map]
        rfl
    _ = (s.files.zipIdx.map Prod.fst).map RomFSBuildFileContext.entrySize := by
        rw [map_fst_zip hlen, map_map]
        rfl
    _ = s.files.map RomFSBuildFileContext.entrySize := by rw [zipIdx_map_fst]

theorem dirEntries_offsets : s.dirEntries.map Entry.entryOffset = s.dirEntryOffsets := by
  have hlen : s.dirEntryOffsets.length ≤ s.directories.length := by simp [dirEntryOffsets]
  rw [dirEntries, map_map]
  exact map_snd_zip hlen

theorem dirEntries_sizes : s.dirEntries.map (Entry.size directoryWidths) = s.directories.map fun dir => dir.1.entrySize := by
  have hlen : s.directories.length ≤ s.dirEntryOffsets.length := by simp [dirEntryOffsets]
  calc s.dirEntries.map (Entry.size directoryWidths)
      = ((s.directories.zip s.dirEntryOffsets).map Prod.fst).map fun dir => dir.1.entrySize := by
        rw [dirEntries, map_map, map_map]
        rfl
    _ = s.directories.map fun dir => dir.1.entrySize := by rw [map_fst_zip hlen]

theorem fileEntries_wellFormed (hplaced : AllPlaced c) (hfits : c.Fits) :
    ∀ entry ∈ s.fileEntries, entry.WellFormed fileWidths := by
  intro entry hentry
  obtain ⟨⟨⟨file, i⟩, offset⟩, hmem, rfl⟩ := mem_map.mp hentry
  have hfile : file ∈ c.files := s.files_sorts.perm.mem_iff.mp (fst_mem_of_mem_zipIdx (of_mem_zip hmem).1)
  have hpath := hfits.files file hfile
  refine ⟨fun _ => rfl, fun link => ?_, fun _ => rfl, fun _ => rfl, fun _ => field_last ..,
    (hplaced.files file hfile).name hpath, hpath⟩
  have hword := toNat_lt_word
  have hsize : ∀ n, n % 2 ^ 64 < 256 ^ 8 := fun n => by omega
  have hname := nameSize_lt_word file.curPathOfs file.pathLen
  simp only [fileEntry, forall_mem_cons]
  exact ⟨hword _, hword _, hsize _, hsize _, hword _, hname, nofun⟩

theorem dirEntries_wellFormed (hplaced : AllPlaced c) (hfits : c.Fits) :
    ∀ entry ∈ s.dirEntries, entry.WellFormed directoryWidths := by
  intro entry hentry
  obtain ⟨⟨⟨dir, i⟩, offset⟩, hmem, rfl⟩ := mem_map.mp hentry
  have hdir : dir ∈ c.directories :=
    fst_mem_of_mem_zipIdx (s.directories_sorts.perm.mem_iff.mp (of_mem_zip hmem).1)
  have hpath := hfits.directories dir hdir
  refine ⟨fun _ => rfl, fun link => ?_, fun _ => rfl, fun _ => rfl, fun _ => field_last ..,
    (hplaced.directories dir hdir).name hpath, hpath⟩
  have hword := toNat_lt_word
  have hname := nameSize_lt_word dir.curPathOfs dir.pathLen
  simp only [dirEntry, forall_mem_cons]
  exact ⟨hword _, hword _, hword _, hword _, hword _, hname, nofun⟩

/-- The sizes of the entries add up to the size of the table. -/
theorem fileEntries_sum : (s.fileEntries.map (Entry.size fileWidths)).sum = c.fileTableSize := by
  rw [fileEntries_sizes]
  exact (s.files_sorts.perm.map _).sum_eq

theorem dirEntries_sum : (s.dirEntries.map (Entry.size directoryWidths)).sum = c.dirTableSize := by
  rw [dirEntries_sizes, RomFSBuildContext.dirTableSize]
  calc (s.directories.map fun dir => dir.1.entrySize).sum = (c.directories.zipIdx.map fun dir => dir.1.entrySize).sum :=
        (s.directories_sorts.perm.map _).sum_eq
    _ = ((c.directories.zipIdx.map Prod.fst).map entrySize).sum := by rw [map_map]; rfl
    _ = (c.directories.map entrySize).sum := by rw [zipIdx_map_fst]

end SortedContext

/-- **The hash tables of a tree.** Where its tables are no longer than 32-bit offsets reach, every directory and every file is
in the chain of the bucket of its parent and name, once, and in no other chain, and every chain ends. -/
theorem build_indexes {patchIPS : VfsFile → VfsFile → Option VfsFile} {base : VfsDirectory} {ext : Option VfsDirectory}
    (s : SortedContext (.new patchIPS base ext)) (h : (RomFSBuildContext.new patchIPS base ext).Fits) :
    s.dirTables.Indexes directoryWidths s.dirEntries ∧ s.fileTables.Indexes fileWidths s.fileEntries := by
  have hplaced := @new_allPlaced patchIPS base ext
  constructor
  · have hsum := h.dirTable
    have hoffsets := s.dirEntries_offsets
    rw [← s.dirEntries_sum] at hsum
    rw [SortedContext.dirTables, ← s.dirEntries_sum]
    rw [SortedContext.dirEntryOffsets, ← s.dirEntries_sizes] at hoffsets
    exact populated_indexes (romfsGetHashTableCount_pos _) (by decide) (s.dirEntries_wellFormed hplaced h) hoffsets hsum
  · have hsum := h.fileTable
    have hoffsets := s.fileEntries_offsets
    rw [← s.fileEntries_sum] at hsum
    rw [SortedContext.fileTables, ← s.fileEntries_sum]
    rw [SortedContext.fileEntryOffsets, ← s.fileEntries_sizes] at hoffsets
    exact populated_indexes (romfsGetHashTableCount_pos _) (by decide) (s.fileEntries_wellFormed hplaced h) hoffsets hsum

/-! ### Tables beyond 32 bits -/

theorem exists_sorts {α : Type} (key : α → List UInt8) (l : List α) : ∃ sorted, Sorts key l sorted := by
  refine ⟨l.mergeSort fun a b => !decide (key b < key a), mergeSort_perm _ _, ?_⟩
  have hle := @pairwise_mergeSort _ (fun a b => !decide (key b < key a)) (fun a b c hab hbc => ?_) (fun a b => ?_) l
  · exact hle.imp fun h => by simpa using h
  · simp only [Bool.not_eq_true', decide_eq_false_iff_not] at hab hbc ⊢
    exact List.le_trans hab hbc
  · simp only [Bool.or_eq_true, Bool.not_eq_true', decide_eq_false_iff_not]
    exact List.le_total _ _

theorem exists_sortedContext (c : RomFSBuildContext) : Nonempty (SortedContext c) := by
  obtain ⟨directories, hdirectories⟩ := exists_sorts (fun dir : RomFSBuildDirectoryContext × ℕ => dir.1.path) c.directories.zipIdx
  obtain ⟨files, hfiles⟩ := exists_sorts RomFSBuildFileContext.path c.files
  exact ⟨⟨directories, files, hdirectories, hfiles⟩⟩

/-- A directory with a file, and a file beside it. -/
def smallTree : VfsDirectory :=
  .mk [] [([0x61], .vectorVfsFile [1])] [.mk [0x62] [([0x63], .vectorVfsFile [])] []]

theorem build_indexes_smallTree : ∃ s : SortedContext (.new (fun _ _ => none) smallTree none),
    s.dirTables.Indexes directoryWidths s.dirEntries ∧ s.fileTables.Indexes fileWidths s.fileEntries := by
  obtain ⟨s⟩ := exists_sortedContext (.new (fun _ _ => none) smallTree none)
  refine ⟨s, build_indexes s ⟨?_, ?_, ?_, ?_⟩⟩
  · decide
  · decide
  · decide
  · decide

/-- 32 binary digits. -/
def digits (k : ℕ) : List UInt8 := (List.range 32).map fun i => if k.testBit i then 0x31 else 0x30

/-- A directory of so many empty files. -/
def manyFiles (n : ℕ) : VfsDirectory := .mk [] ((List.range n).map fun k => (digits k, .vectorVfsFile [])) []

theorem manyFiles_files (n : ℕ) : (RomFSBuildContext.new (fun _ _ => none) (manyFiles n) none).files =
    (List.range n).map fun k => root.childFile 0 (digits k) (.vectorVfsFile []) := by
  have hstub : ∀ l : List (List UInt8 × VfsFile), (l.filter fun file => !isStub none file.1) = l := fun l =>
    filter_eq_self.mpr fun _ _ => rfl
  rw [RomFSBuildContext.new, manyFiles, visitDirectory, visitSubdirectories, visitFiles, nil_append, hstub, map_map]
  rfl

/-- Every file takes 64 bytes of the table. -/
theorem manyFiles_entrySize {n : ℕ} {file : RomFSBuildFileContext}
    (h : file ∈ (RomFSBuildContext.new (fun _ _ => none) (manyFiles n) none).files) : file.entrySize = 64 := by
  rw [manyFiles_files] at h
  obtain ⟨k, -, rfl⟩ := mem_map.mp h
  have hlength : (digits k).length = 32 := by rw [digits, length_map, length_range]
  have hname : nameSize root.childPathOfs
      (root.childPathLen (digits k)) = 32 := by
    rw [childPathLen, hlength]
    decide
  rw [RomFSBuildFileContext.entrySize, childFile, hname]
  decide

theorem entryOffsets_replicate (size : ℕ) : ∀ {n d i : ℕ}, i < n →
    (entryOffsets (BitVec.ofNat 32 d) (List.replicate n size))[i]? = some (BitVec.ofNat 32 (d + size * i))
  | n + 1, d, 0, _ => by
    rw [replicate_succ, entryOffsets_cons, getElem?_cons_zero, Nat.mul_zero, Nat.add_zero]
  | n + 1, d, i + 1, h => by
    have hrest := entryOffsets_replicate size (d := d + size) (Nat.lt_of_succ_lt_succ h)
    rw [replicate_succ, entryOffsets_cons, getElem?_cons_succ, hrest, Nat.mul_succ, Nat.add_assoc,
      Nat.add_comm size]

/-- The offsets of two of the files are the same. -/
theorem manyFiles_not_indexes {n : ℕ} (hn : 2 ^ 26 < n) (s : SortedContext (.new (fun _ _ => none) (manyFiles n) none)) :
    ¬ s.fileTables.Indexes fileWidths s.fileEntries := by
  intro h
  have hlength : s.files.length = n := by
    rw [s.files_sorts.perm.length_eq, manyFiles_files, length_map, length_range]
  have hsizes : s.files.map RomFSBuildFileContext.entrySize = List.replicate n 64 := by
    refine eq_replicate_iff.mpr ⟨by rw [length_map, hlength], fun size hsize => ?_⟩
    obtain ⟨file, hfile, rfl⟩ := mem_map.mp hsize
    exact manyFiles_entrySize (s.files_sorts.perm.mem_iff.mp hfile)
  have hdistinct := h.distinct
  rw [s.fileEntries_offsets, SortedContext.fileEntryOffsets, hsizes] at hdistinct
  have hfirst := entryOffsets_replicate 64 (d := 0) (Nat.lt_of_le_of_lt (Nat.zero_le _) hn)
  have hlast := entryOffsets_replicate 64 (d := 0) hn
  have hsame : BitVec.ofNat 32 (0 + 64 * 2 ^ 26) = BitVec.ofNat 32 (0 + 64 * 0) := by decide
  rw [hsame, ← hfirst] at hlast
  have hne : (2 ^ 26 : ℕ) ≠ 0 := by decide
  refine hne ((List.nodup_iff_getElem?_ne_getElem?.mp hdistinct 0 (2 ^ 26) (by decide) ?_ hlast.symm).elim)
  rw [entryOffsets_length, length_replicate]
  exact hn

/-- 67108865 files are too many. -/
theorem build_not_indexes : ∃ s : SortedContext (.new (fun _ _ => none) (manyFiles 67108865) none),
    ¬ s.fileTables.Indexes fileWidths s.fileEntries := by
  obtain ⟨s⟩ := exists_sortedContext (.new (fun _ _ => none) (manyFiles 67108865) none)
  exact ⟨s, manyFiles_not_indexes (by decide) s⟩

end RomFsBuild
end FileSys
end Citron
