import Mathlib.Data.List.Basic

/-! A stdio stream open for appending: its own buffer, what the kernel has of the file, and
what is on disk for certain. -/
namespace Astlog.Foundation

structure StdioFile (α : Type*) where
  buffer : List α := []
  kernel : List α := []
  disk : List α := []
  deriving DecidableEq

namespace StdioFile
variable {α : Type*}

def fwrite (f : StdioFile α) (bytes : List α) : StdioFile α := { f with buffer := f.buffer ++ bytes }

/-- The library hands the first `n` buffered bytes to the kernel on its own. -/
def spill (f : StdioFile α) (n : ℕ) : StdioFile α :=
  { f with buffer := f.buffer.drop n, kernel := f.kernel ++ f.buffer.take n }

def fflush (f : StdioFile α) : StdioFile α :=
  { f with buffer := [], kernel := f.kernel ++ f.buffer }

/-- `fsync`, and for the data of the file `fdatasync`: it knows nothing of the buffer. -/
def fsync (f : StdioFile α) : StdioFile α := { f with disk := f.kernel }

/-- The bytes written to the stream, wherever they are. -/
def contents (f : StdioFile α) : List α := f.kernel ++ f.buffer

@[simp] theorem contents_fwrite (f : StdioFile α) (bytes : List α) :
    (f.fwrite bytes).contents = f.contents ++ bytes := by simp [contents, fwrite]

@[simp] theorem contents_spill (f : StdioFile α) (n : ℕ) : (f.spill n).contents = f.contents := by
  simp [contents, spill]

@[simp] theorem contents_fflush (f : StdioFile α) : f.fflush.contents = f.contents := by
  simp [contents, fflush]

@[simp] theorem contents_fsync (f : StdioFile α) : f.fsync.contents = f.contents := rfl

/-- All that was written is on disk after an `fsync` exactly when the buffer was empty. -/
theorem fsync_disk_eq_contents_iff (f : StdioFile α) :
    f.fsync.disk = f.contents ↔ f.buffer = [] := by
  rw [fsync, contents, List.self_eq_append_right]

/-- What one step can do to a stream. -/
inductive Next (f : StdioFile α) : StdioFile α → Prop
  | kept : Next f f
  | fwrite (bytes : List α) : Next f (f.fwrite bytes)
  | spill (n : ℕ) : Next f (f.spill n)
  | fflush : Next f f.fflush
  | fsync : Next f f.fsync

/-- The kernel keeps what it was handed. -/
theorem Next.kernel {f g : StdioFile α} (h : f.Next g) : f.kernel <+: g.kernel := by
  cases h with
  | spill n => exact List.prefix_append _ _
  | fflush => exact List.prefix_append _ _
  | _ => exact List.prefix_rfl

/-- What is on disk went through the kernel. -/
def Behind (f : StdioFile α) : Prop := f.disk <+: f.kernel

/-- What a crash may leave of the file: what was synced, and of the rest what the kernel has
written back on its own, from the front. -/
def Leaves (f : StdioFile α) (left : List α) : Prop := f.disk <+: left ∧ left <+: f.kernel

/-- At the least what is on disk. -/
theorem Behind.leaves_disk {f : StdioFile α} (h : f.Behind) : f.Leaves f.disk := ⟨List.prefix_rfl,h⟩

/-- The later stream has kept what the earlier had, and where it had it. -/
structure Extends (f g : StdioFile α) : Prop where
  behind : g.Behind
  kernel : f.kernel <+: g.kernel
  disk : f.disk <+: g.disk

theorem Extends.refl {f : StdioFile α} (h : f.Behind) : f.Extends f :=
  ⟨h,List.prefix_rfl,List.prefix_rfl⟩

theorem Extends.next {f g g' : StdioFile α} (h : f.Extends g) (hn : g.Next g') : f.Extends g' := by
  have hbehind : ∀ bytes, g.disk <+: g.kernel ++ bytes := fun bytes =>
    h.behind.trans (List.prefix_append _ bytes)
  have hkernel := h.kernel.trans hn.kernel
  cases hn with
  | kept => exact h
  | fwrite bytes => exact ⟨h.behind,hkernel,h.disk⟩
  | spill n => exact ⟨hbehind _,hkernel,h.disk⟩
  | fflush => exact ⟨hbehind _,hkernel,h.disk⟩
  | fsync => exact ⟨List.prefix_rfl,hkernel,h.disk.trans h.behind⟩

/-- A crash leaves what was on disk before, and nothing but what was written. -/
theorem Extends.leaves {f g : StdioFile α} (h : f.Extends g) {left : List α} (hl : g.Leaves left) :
    f.disk <+: left ∧ left <+: g.contents :=
  ⟨h.disk.trans hl.1,hl.2.trans (List.prefix_append _ _)⟩

/-- A prefix of records written one after the other: whole ones, then a part of one. -/
theorem prefix_flatMap_cases {β : Type*} {f : β → List α} {rs : List β} {bytes : List α}
    (h : bytes <+: rs.flatMap f) : ∃ whole rest part, rs = whole ++ rest ∧
      bytes = whole.flatMap f ++ part ∧ (part = [] ∨ ∃ r, rest.head? = some r ∧ part <+: f r) := by
  induction rs generalizing bytes with
  | nil => exact ⟨[],[],[],rfl,List.prefix_nil.mp h,.inl rfl⟩
  | cons r rs ih =>
    rw [List.flatMap_cons] at h
    by_cases hr : bytes <+: f r
    · exact ⟨[],r::rs,bytes,rfl,rfl,.inr ⟨r,rfl,hr⟩⟩
    · obtain ⟨more,rfl⟩ := (List.prefix_or_prefix_of_prefix h (List.prefix_append _ _)).resolve_left hr
      obtain ⟨whole,rest,part,rfl,rfl,hpart⟩ := ih ((List.prefix_append_right_inj _).mp h)
      exact ⟨r::whole,rest,part,rfl,by simp,hpart⟩

end StdioFile
end Astlog.Foundation
