import Bindery.Dump.Provider
import Bindery.Proofs.OsPath
import Bindery.Proofs.Source.Bytes
import Mathlib.Data.List.Basic

/-! The bytes that stand for a request. Of a path they tell the text that is shown for it. -/

namespace Bindery

variable {s t : String}

theorem toList_loop (b : ByteArray) (i : Nat) (seen : List UInt8) :
    ByteArray.toList.loop b i seen = seen.reverse ++ b.data.toList.drop i := by
  fun_induction ByteArray.toList.loop b i seen with
  | case1 i seen h ih =>
    have hnext : b.data.toList.drop i = b.get! i :: b.data.toList.drop (i + 1) := by
      have hi : i < b.data.toList.length := h
      have hget : b.get! i = b.data.toList[i] := getElem!_pos b.data i h
      rw [List.drop_eq_getElem_cons hi, hget]
    rw [ih, hnext, List.reverse_cons, List.append_assoc, List.singleton_append]
  | case2 i seen h =>
    rw [List.drop_eq_nil_iff.mpr (Nat.le_of_not_lt h), List.append_nil]

theorem toUTF8_toList (s : String) : s.toUTF8.toList = Search.bytes s.toList := by
  have hencode : s.toUTF8 = s.toList.utf8Encode := String.utf8Encode_toList.symm
  rw [hencode, ByteArray.toList, toList_loop, List.utf8Encode, List.toList_data_toByteArray]
  rfl

theorem toUTF8_toList_injective : Function.Injective fun s : String => s.toUTF8.toList := by
  intro s t h
  simp only [ByteArray.toList, toList_loop, List.drop_zero, List.reverse_nil, List.nil_append] at h
  exact String.toByteArray_inj.mp (ByteArray.ext (Array.toList_inj.mp h))

/-- A zero byte is a zero character. -/
theorem zero_mem_toUTF8_iff : 0 ∈ s.toUTF8.toList ↔ '\x00' ∈ s.toList := by
  rw [toUTF8_toList, Search.bytes, List.mem_flatMap]
  constructor
  · rintro ⟨c, hc, hzero⟩
    have hmark := Search.mark_eq (m := '\x00') (by decide) hzero
    have hc' : c = '\x00' := beq_iff_eq.mp (hmark ▸ rfl)
    exact hc' ▸ hc
  · exact fun h => ⟨_, h, by decide⟩

namespace Fingerprint

variable {f g : Fingerprint}

/-- No part has a zero byte of its own. -/
def ZeroFree (f : Fingerprint) : Prop :=
  ∀ part ∈ f.parts, 0 ∉ part.toUTF8.toList

/-- The parts are what the zeros end. -/
theorem splitOn_bytes (hf : f.ZeroFree) : f.bytes.splitOn 0 = f.parts.map (·.toUTF8.toList) ++ [[]] := by
  obtain ⟨parts⟩ := f
  induction parts with
  | nil => rfl
  | cons part parts ih =>
    have hpart : 0 ∉ part.toUTF8.toList := hf part List.mem_cons_self
    have hrest := ih fun p hp => hf p (List.mem_cons_of_mem _ hp)
    rw [bytes] at hrest ⊢
    rw [List.flatMap_cons, List.append_assoc, List.singleton_append,
      List.splitOn_append_cons_self_of_not_mem hpart, hrest]
    rfl

theorem bytes_inj (hf : f.ZeroFree) (hg : g.ZeroFree) : f.bytes = g.bytes ↔ f = g := by
  refine ⟨fun h => ?_, fun h => h ▸ rfl⟩
  have hsplit := congrArg (List.splitOn 0) h
  rw [splitOn_bytes hf, splitOn_bytes hg, List.append_cancel_right_eq] at hsplit
  have hparts : f.parts = g.parts := List.map_injective_iff.mpr toUTF8_toList_injective hsplit
  cases f
  cases g
  exact congrArg _ hparts

end Fingerprint

namespace Compiler

variable {c c' : Compiler} {header header' : OsPath} {digest digest' : String}

/-- Nothing that decides about the dump of a header has a zero byte. -/
structure ZeroFree (c : Compiler) (header : OsPath) (digest : String) : Prop where
  path : 0 ∉ c.path.bytes
  args : ∀ arg ∈ c.args, 0 ∉ arg.toUTF8.toList
  header : 0 ∉ header.bytes
  digest : 0 ∉ digest.toUTF8.toList

theorem ZeroFree.request (h : c.ZeroFree header digest) : (c.request header digest).ZeroFree := by
  have hpath : ∀ {p : OsPath}, 0 ∉ p.bytes → 0 ∉ p.lossy.toUTF8.toList :=
    fun hp hzero => hp (OsPath.zero_mem_of_lossy (zero_mem_toUTF8_iff.mp hzero))
  simp only [Fingerprint.ZeroFree, Compiler.request, List.cons_append, List.forall_mem_cons,
    List.forall_mem_append]
  exact ⟨hpath h.path, h.args, hpath h.header, h.digest, List.forall_mem_nil _⟩

/-- The bytes of a request tell all its arguments in their order, the digest of what the header holds, and
the texts that are shown for the paths of the compiler and the header. They tell the paths themselves if
these are texts. -/
theorem request_bytes_iff (h : c.ZeroFree header digest) (h' : c'.ZeroFree header' digest') :
    ((c.request header digest).bytes = (c'.request header' digest').bytes ↔
      c.path.lossy = c'.path.lossy ∧ c.args = c'.args ∧ header.lossy = header'.lossy ∧
        digest = digest') ∧
    (c.path.IsText → c'.path.IsText → header.IsText → header'.IsText →
      ((c.request header digest).bytes = (c'.request header' digest').bytes ↔
        c.path = c'.path ∧ c.args = c'.args ∧ header = header' ∧ digest = digest')) := by
  have hbytes : (c.request header digest).bytes = (c'.request header' digest').bytes ↔
      c.path.lossy = c'.path.lossy ∧ c.args = c'.args ∧ header.lossy = header'.lossy ∧
        digest = digest' := by
    rw [Fingerprint.bytes_inj h.request h'.request, request, request, Fingerprint.mk.injEq,
      List.cons_append, List.cons_append, List.cons.injEq]
    refine and_congr_right fun _ => ⟨fun hparts => ?_, ?_⟩
    -- The header and the digest are the last two, so as many arguments stand before them on both sides.
    · obtain ⟨hargs, hlast⟩ := List.append_inj' hparts rfl
      simpa [hargs] using hlast
    · rintro ⟨hargs, hheader, rfl⟩
      rw [hargs, hheader]
  refine ⟨hbytes, fun hpath hpath' hheader hheader' => ?_⟩
  rw [hbytes, OsPath.lossy_inj hpath hpath', OsPath.lossy_inj hheader hheader']

/-- A compiler that is given an empty argument at some place. -/
def withArgs (args : List String) : Compiler :=
  ⟨"/opt/llvm/bin/clang", args, some "cache"⟩

theorem withArgs_zeroFree {args : List String} (h : ∀ arg ∈ args, '\x00' ∉ arg.toList) :
    (withArgs args).ZeroFree "a.h" "00" where
  path := by
    show 0 ∉ (OsPath.ofText "/opt/llvm/bin/clang").bytes
    decide
  args arg harg := mt zero_mem_toUTF8_iff.mp (h arg harg)
  header := by decide
  digest := mt zero_mem_toUTF8_iff.mp (by decide)

/-- An empty argument counts, and so does its place. -/
theorem empty_argument_counts :
    (withArgs ["", "-DX"]).ZeroFree "a.h" "00" ∧ (withArgs ["-DX", ""]).ZeroFree "a.h" "00" ∧
      ((withArgs ["", "-DX"]).request "a.h" "00").bytes ≠ ((withArgs ["-DX", ""]).request "a.h" "00").bytes := by
  have hfront : (withArgs ["", "-DX"]).ZeroFree "a.h" "00" := withArgs_zeroFree (by decide)
  have hback : (withArgs ["-DX", ""]).ZeroFree "a.h" "00" := withArgs_zeroFree (by decide)
  refine ⟨hfront, hback, fun h => ?_⟩
  obtain ⟨-, hargs, -⟩ := (request_bytes_iff hfront hback).1.mp h
  exact absurd hargs (by decide)

/-- A compiler in a directory that has the name of some bytes. -/
def inFolder (name : List UInt8) : Compiler :=
  ⟨⟨(OsPath.ofText "opt/").bytes ++ name ++ (OsPath.ofText "/clang").bytes⟩, ["-DRZ_BINDINGS"], some "cache"⟩

/-- The character that is shown for bytes that are none. -/
def shownName : List UInt8 :=
  (OsPath.ofText "\uFFFD").bytes

/-- Of two compilers at different paths, one of which is no text, the requests have the same bytes. -/
theorem undecodable_folder_passes : (inFolder [0xFE]).ZeroFree "a.h" "00" ∧
    (inFolder shownName).ZeroFree "a.h" "00" ∧ (inFolder [0xFE]).path ≠ (inFolder shownName).path ∧
      ((inFolder [0xFE]).request "a.h" "00").bytes = ((inFolder shownName).request "a.h" "00").bytes := by
  have hfree : ∀ name : List UInt8, 0 ∉ name → (inFolder name).ZeroFree "a.h" "00" := by
    intro name hname
    have hfront : 0 ∉ (OsPath.ofText "opt/").bytes := by decide
    have hback : 0 ∉ (OsPath.ofText "/clang").bytes := by decide
    refine ⟨by simp [inFolder, hfront, hback, hname], ?_, by decide, mt zero_mem_toUTF8_iff.mp (by decide)⟩
    exact List.forall_mem_singleton.mpr (mt zero_mem_toUTF8_iff.mp (by decide))
  have hsame : (inFolder [0xFE]).request "a.h" "00" = (inFolder shownName).request "a.h" "00" := by
    decide
  exact ⟨hfree _ (by decide), hfree _ (by decide), by decide, congrArg Fingerprint.bytes hsame⟩

/-- With a zero in it an argument passes for two. -/
example : ((withArgs ["a\x00b"]).request "a.h" "00").bytes =
    ((withArgs ["a", "b"]).request "a.h" "00").bytes := by
  cbv

end Compiler

end Bindery
