import PatternGraph.Proofs.Query.Interpretation
import PatternGraph.Query.RowBytes

/-!
# Rows by their bytes

Whatever follows, the bytes of a number, a key or an item cannot be confused with those of another one,
because their length is fixed or written before them.  So the bytes of a row tell its shape, and the item
in every position.
-/

namespace PatternGraph

theorem length_littleEndian (width n : Nat) : (littleEndian width n).length = width := by
  induction width generalizing n with
  | zero => rfl
  | succ width ih => rw [littleEndian, List.length_cons, ih]

theorem littleEndian_inj {width m n : Nat} (hm : m < 256 ^ width) (hn : n < 256 ^ width)
    (h : littleEndian width m = littleEndian width n) : m = n := by
  induction width generalizing m n with
  | zero => omega
  | succ width ih =>
      rw [littleEndian, littleEndian, List.cons.injEq] at h
      obtain ⟨hlow, hhigh⟩ := h
      have hrest : m / 256 = n / 256 := ih (by omega) (by omega) hhigh
      have hmod : m % 256 = n % 256 := by
        simpa using congrArg UInt8.toNat hlow
      omega

theorem textBytes_inj {a b : String} (h : textBytes a = textBytes b) : a = b :=
  String.toByteArray_inj.mp (ByteArray.ext (Array.toList_inj.mp h))

theorem length_textBytes (text : String) : (textBytes text).length = text.utf8ByteSize := rfl

/-- Whether the bytes of certain values can be told apart, whatever follows them. -/
def PrefixFree {α : Type} (P : α → Prop) (bytes : α → List UInt8) : Prop :=
  ∀ a b rest rest', P a → P b → bytes a ++ rest = bytes b ++ rest' → a = b ∧ rest = rest'

namespace PrefixFree

variable {α β : Type} {P : α → Prop} {Q : β → Prop} {bytes : α → List UInt8} {bytes' : β → List UInt8}

/-- Bytes of one length that differ are told apart. -/
theorem of_length (n : Nat) (hlength : ∀ a, P a → (bytes a).length = n)
    (hinj : ∀ a b, P a → P b → bytes a = bytes b → a = b) : PrefixFree P bytes := by
  intro a b rest rest' ha hb h
  obtain ⟨hbytes, hrest⟩ := List.append_inj h ((hlength a ha).trans (hlength b hb).symm)
  exact ⟨hinj a b ha hb hbytes, hrest⟩

/-- Two values, one after the other, are told apart like each of them. -/
theorem prod (h : PrefixFree P bytes) (h' : PrefixFree Q bytes') :
    PrefixFree (fun x : α × β => P x.1 ∧ Q x.2) fun x => bytes x.1 ++ bytes' x.2 := by
  rintro ⟨a, b⟩ ⟨c, d⟩ rest rest' ⟨ha, hb⟩ ⟨hc, hd⟩ heq
  rw [List.append_assoc, List.append_assoc] at heq
  obtain ⟨hfirst, heq⟩ := h a c _ _ ha hc heq
  obtain ⟨hsecond, hrest⟩ := h' b d _ _ hb hd heq
  exact ⟨Prod.ext hfirst hsecond, hrest⟩

/-- As many values, one after the other, are told apart like each of them. -/
theorem flatMap (h : PrefixFree P bytes) {l l' : List α} (hlength : l.length = l'.length)
    (hl : ∀ a ∈ l, P a) (hl' : ∀ a ∈ l', P a) (heq : l.flatMap bytes = l'.flatMap bytes) : l = l' := by
  induction l generalizing l' with
  | nil => exact (List.length_eq_zero_iff.mp hlength.symm).symm
  | cons a l ih =>
      cases l' with
      | nil => cases hlength
      | cons b l' =>
          rw [List.flatMap_cons, List.flatMap_cons] at heq
          obtain ⟨rfl, hrest⟩ := h a b _ _ (hl a List.mem_cons_self) (hl' b List.mem_cons_self) heq
          rw [ih (Nat.succ.inj hlength) (fun c hc => hl c (List.mem_cons_of_mem a hc))
            (fun c hc => hl' c (List.mem_cons_of_mem a hc)) hrest]

end PrefixFree

theorem prefixFree_wordBytes : PrefixFree (· < 2 ^ 64) wordBytes := by
  apply PrefixFree.of_length 8 (fun n _ => length_littleEndian 8 n)
  intro m n hm hn
  exact littleEndian_inj hm hn

theorem prefixFree_keyBytes :
    PrefixFree (fun k : String => k.utf8ByteSize < 2 ^ 64) fun k => (Position.key k).bytes := by
  intro k l rest rest' hk hl h
  simp only [Position.bytes, List.append_assoc] at h
  obtain ⟨hsize, h⟩ := prefixFree_wordBytes _ _ _ _ hk hl h
  have hlength : (textBytes k).length = (textBytes l).length := by
    rw [length_textBytes, length_textBytes, hsize]
  obtain ⟨htext, hrest⟩ := List.append_inj h hlength
  exact ⟨textBytes_inj htext, hrest⟩

/-- The number of an item. -/
def ItemId.number : ItemId → Nat
  | .node id => id.number
  | .edge id => id.number

theorem prefixFree_itemBytes : PrefixFree (fun id : ItemId => id.number < 2 ^ 64) ItemId.bytes := by
  intro a b rest rest' ha hb h
  cases a with
  | node m =>
      cases b with
      | edge e => cases (List.cons.inj h).1
      | node n =>
          obtain ⟨hnumber, hrest⟩ := prefixFree_wordBytes _ _ _ _ ha hb (List.cons.inj h).2
          exact ⟨congrArg ItemId.node (Ident.eq_of_number hnumber), hrest⟩
  | edge d =>
      cases b with
      | node n => cases (List.cons.inj h).1
      | edge e =>
          obtain ⟨hnumber, hrest⟩ := prefixFree_wordBytes _ _ _ _ ha hb (List.cons.inj h).2
          exact ⟨congrArg ItemId.edge (Ident.eq_of_number hnumber), hrest⟩

/-- Whether a place is of the sort that a shape has, and what is written of it fits in its bytes. -/
def Shape.Takes : Shape → Position → Prop
  | .single, place => place = .root
  | .list _, place => ∃ i < 2 ^ 64, place = .index i
  | .record _ _, place => ∃ k, k.utf8ByteSize < 2 ^ 64 ∧ place = .key k

theorem Shape.prefixFree_places (shape : Shape) : PrefixFree shape.Takes Position.bytes := by
  intro a b rest rest' ha hb h
  cases shape with
  | single =>
      obtain rfl := ha
      obtain rfl := hb
      exact ⟨rfl, h⟩
  | list length =>
      obtain ⟨i, hi, rfl⟩ := ha
      obtain ⟨j, hj, rfl⟩ := hb
      obtain ⟨rfl, hrest⟩ := prefixFree_wordBytes _ _ _ _ hi hj h
      exact ⟨rfl, hrest⟩
  | record keys ascending =>
      obtain ⟨k, hk, rfl⟩ := ha
      obtain ⟨l, hl, rfl⟩ := hb
      obtain ⟨rfl, hrest⟩ := prefixFree_keyBytes _ _ _ _ hk hl h
      exact ⟨rfl, hrest⟩

/-- What is written of a shape tells its sort and its size, which leave only the places open. -/
theorem Shape.of_bytes {a b : Shape} {rest rest' : List UInt8} (ha : a.size < 2 ^ 64)
    (hb : b.size < 2 ^ 64) (h : a.bytes ++ rest = b.bytes ++ rest') :
    a.Takes = b.Takes ∧ a.size = b.size ∧ (a.positions = b.positions → a = b) ∧ rest = rest' := by
  have hlist : ∀ length, (Shape.list length).size = length := by simp [Shape.size, Shape.positions]
  have hrecord : ∀ keys ascending, (Shape.record keys ascending).size = keys.length := by
    simp [Shape.size, Shape.positions]
  cases a with
  | single =>
      cases b with
      | single => exact ⟨rfl, rfl, fun _ => rfl, (List.cons.inj h).2⟩
      | list m => cases (List.cons.inj h).1
      | record l hl => cases (List.cons.inj h).1
  | list n =>
      cases b with
      | single => cases (List.cons.inj h).1
      | list m =>
          rw [hlist] at ha hb
          obtain ⟨rfl, hrest⟩ := prefixFree_wordBytes _ _ _ _ ha hb (List.cons.inj h).2
          exact ⟨rfl, rfl, fun _ => rfl, hrest⟩
      | record l hl => cases (List.cons.inj h).1
  | record k hk =>
      cases b with
      | single => cases (List.cons.inj h).1
      | list m => cases (List.cons.inj h).1
      | record l hl =>
          rw [hrecord] at ha hb
          obtain ⟨hsize, hrest⟩ := prefixFree_wordBytes _ _ _ _ ha hb (List.cons.inj h).2
          refine ⟨rfl, by rw [hrecord, hrecord, hsize], fun hpositions => ?_, hrest⟩
          obtain rfl := List.map_injective_iff.mpr (fun _ _ => Position.key.inj) hpositions
          rfl

namespace RowKey

/-- Whether all numbers that are written of a row fit in their bytes. -/
structure Fits (key : RowKey) : Prop where
  size : key.shape.size < 2 ^ 64
  names : ∀ k, .key k ∈ key.shape.positions → k.utf8ByteSize < 2 ^ 64
  items : ∀ id ∈ key.values, id.number < 2 ^ 64

variable {key key' : RowKey}

theorem Fits.takes (h : key.Fits) {place : Position} (hplace : place ∈ key.shape.positions) :
    key.shape.Takes place := by
  obtain ⟨hsize, hnames, -⟩ := h
  cases hshape : key.shape with
  | single =>
      rw [hshape] at hplace
      exact List.mem_singleton.mp hplace
  | list length =>
      rw [hshape] at hplace hsize
      obtain ⟨i, hi, rfl⟩ := List.mem_map.mp hplace
      have hlength : (Shape.list length).size = length := by simp [Shape.size, Shape.positions]
      rw [hlength] at hsize
      exact ⟨i, (List.mem_range.mp hi).trans hsize, rfl⟩
  | record keys ascending =>
      rw [hshape] at hplace hnames
      obtain ⟨k, -, rfl⟩ := List.mem_map.mp hplace
      exact ⟨k, hnames k hplace, rfl⟩

theorem Fits.takes_places (h : key.Fits) :
    ∀ place ∈ key.places, key.shape.Takes place.1 ∧ place.2.number < 2 ^ 64 := by
  intro place hplace
  obtain ⟨hposition, hvalue⟩ := List.of_mem_zip hplace
  exact ⟨h.takes hposition, h.items _ hvalue⟩

/-- The bytes of a row tell its shape, and the item in every position. -/
theorem bytes_inj (h : key.Fits) (h' : key'.Fits) : key.bytes = key'.bytes ↔ key = key' := by
  refine ⟨fun hbytes => ?_, congrArg bytes⟩
  rw [bytes, bytes, List.append_assoc, List.append_assoc, List.append_cancel_left_eq] at hbytes
  obtain ⟨hsort, hsize, hshape, hplaces⟩ := Shape.of_bytes h.size h'.size hbytes
  have hlength : key.places.length = key'.places.length := by
    rw [Layout.places, Layout.places, List.length_zip, List.length_zip, key.fits, key'.fits]
    exact congrArg (fun n => min n n) hsize
  have hsame : key.places = key'.places :=
    (key.shape.prefixFree_places.prod prefixFree_itemBytes).flatMap hlength h.takes_places
      (hsort ▸ h'.takes_places) hplaces
  have hpositions := congrArg (List.map Prod.fst) hsame
  have hvalues := congrArg (List.map Prod.snd) hsame
  rw [Layout.places, Layout.places, List.map_fst_zip key.fits.ge, List.map_fst_zip key'.fits.ge]
    at hpositions
  rw [Layout.places, Layout.places, List.map_snd_zip key.fits.le, List.map_snd_zip key'.fits.le]
    at hvalues
  exact Layout.eq_of_values (hshape hpositions) hvalues

end RowKey

end PatternGraph
