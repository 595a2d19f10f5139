import TpeSo.Lib.Bytes
import Mathlib.Data.List.Basic

namespace TpeSo.Lib

/-!
# Laying bytes down below a stack pointer

A stack that grows downwards is filled by writes, each of them below the one before.

* `Span`, `Descends` — ranges of addresses that stand one below the other, between two bounds;
* `Chunk`, `writeAll` — bytes written from a pointer on, and one such write after another;
* `holds_writeAll` — what was written downwards is still there at the end;
* `pushAll`, `words` — words pushed, and read back upwards: the last comes first.
-/

/-- The addresses from `lo` on, `len` of them. -/
structure Span where
  lo : Nat
  len : Nat
  deriving DecidableEq

/-- One past the last address. -/
def Span.hi (s : Span) : Nat := s.lo + s.len

theorem Span.lo_le_hi (s : Span) : s.lo ≤ s.hi := Nat.le_add_right _ _

/-- The spans stand one below the other, from `top` down to `bottom`; gaps may remain. -/
def Descends : Nat → List Span → Nat → Prop
  | top, [], bottom => bottom ≤ top
  | top, s :: ss, bottom => s.hi ≤ top ∧ Descends s.lo ss bottom

variable {w : Nat} {mem : Memory} {s : Span} {ss ts : List Span} {top mid bottom x : Nat}

namespace Descends

theorem le : ∀ {ss : List Span} {top : Nat}, Descends top ss bottom → bottom ≤ top := by
  intro ss
  induction ss with
  | nil => exact fun h => h
  | cons s ss ih => exact fun h => (ih h.2).trans (s.lo_le_hi.trans h.1)

theorem mono : ∀ {ss : List Span} {top top' : Nat}, Descends top ss bottom → top ≤ top' →
    Descends top' ss bottom
  | [], _, _, h, hle => le_trans h hle
  | _ :: _, _, _, h, hle => ⟨h.1.trans hle, h.2⟩

theorem append : ∀ {ss : List Span} {top : Nat}, Descends top ss mid → Descends mid ts bottom →
    Descends top (ss ++ ts) bottom := by
  intro ss
  induction ss with
  | nil => exact fun h hts => hts.mono h
  | cons s ss ih => exact fun h hts => ⟨h.1, ih h.2 hts⟩

/-- Room may be left below. -/
theorem lower (h : Descends top ss mid) (hle : bottom ≤ mid) : Descends top ss bottom := by
  rw [← List.append_nil ss]
  exact h.append hle

/-- Every span is between the bounds. -/
theorem inside : ∀ {ss : List Span} {top : Nat}, Descends top ss bottom → s ∈ ss →
    bottom ≤ s.lo ∧ s.hi ≤ top := by
  intro ss
  induction ss with
  | nil => exact fun _ hs => absurd hs List.not_mem_nil
  | cons t ss ih =>
    intro top h hs
    obtain rfl | hs := List.mem_cons.mp hs
    · exact ⟨h.2.le, h.1⟩
    · have hin := ih h.2 hs
      exact ⟨hin.1, hin.2.trans (t.lo_le_hi.trans h.1)⟩

/-- No two spans share an address. -/
theorem pairwise : ∀ {ss : List Span} {top : Nat}, Descends top ss bottom →
    ss.Pairwise fun s t => t.hi ≤ s.lo := by
  intro ss
  induction ss with
  | nil => exact fun _ => .nil
  | cons s ss ih => exact fun h => .cons (fun t ht => (h.2.inside ht).2) (ih h.2)

end Descends

/-! ### Writes -/

/-- Bytes written from a pointer of `w` bits on. -/
structure Chunk (w : Nat) where
  base : BitVec w
  bytes : List UInt8

/-- Where the bytes go, as long as the pointer does not wrap. -/
def Chunk.span (c : Chunk w) : Span := ⟨c.base.toNat, c.bytes.length⟩

/-- The address of a byte: pointer arithmetic wraps. -/
def Chunk.addr (c : Chunk w) (i : Nat) : Nat := (c.base + BitVec.ofNat w i).toNat

theorem Chunk.addr_of_lt {c : Chunk w} {i : Nat} (h : c.base.toNat + i < 2 ^ w) :
    c.addr i = c.base.toNat + i := by
  have hi : i < 2 ^ w := lt_of_le_of_lt (Nat.le_add_left _ _) h
  rw [addr, BitVec.toNat_add, BitVec.toNat_ofNat, Nat.mod_eq_of_lt hi]
  exact Nat.mod_eq_of_lt h

/-- Write bytes one after the other. -/
def writeBytes (mem : Memory) (a : BitVec w) : List UInt8 → Memory
  | [] => mem
  | b :: l => writeBytes (Function.update mem a.toNat b) (a + 1) l

def writeChunk (mem : Memory) (c : Chunk w) : Memory := writeBytes mem c.base c.bytes

def writeAll (mem : Memory) (cs : List (Chunk w)) : Memory := cs.foldl writeChunk mem

theorem toNat_succ {a : BitVec w} (h : a.toNat + 1 < 2 ^ w) : (a + 1).toNat = a.toNat + 1 := by
  have hone : (1 : Nat) < 2 ^ w := by omega
  rw [BitVec.toNat_add, BitVec.ofNat_eq_ofNat, BitVec.toNat_ofNat, Nat.mod_eq_of_lt hone]
  exact Nat.mod_eq_of_lt h

/-- A pointer that moves down within its bounds. -/
theorem toNat_sub_ofNat {a : BitVec w} {n : Nat} (h : n ≤ a.toNat) :
    (a - BitVec.ofNat w n).toNat = a.toNat - n := by
  have hn : (BitVec.ofNat w n).toNat = n := by
    rw [BitVec.toNat_ofNat]
    exact Nat.mod_eq_of_lt (lt_of_le_of_lt h a.isLt)
  rw [BitVec.toNat_sub_of_le (by rwa [BitVec.le_def, hn]), hn]

/-- One move down after another. -/
theorem sub_ofNat_sub_ofNat (a : BitVec w) (m n : Nat) :
    a - BitVec.ofNat w m - BitVec.ofNat w n = a - BitVec.ofNat w (m + n) := by
  rw [BitVec.sub_sub, BitVec.ofNat_add]

/-- Bytes outside of a write stay. -/
theorem writeBytes_apart : ∀ {l : List UInt8} {a : BitVec w} {mem : Memory},
    a.toNat + l.length < 2 ^ w → x < a.toNat ∨ a.toNat + l.length ≤ x →
    writeBytes mem a l x = mem x := by
  intro l
  induction l with
  | nil => exact fun _ _ => rfl
  | cons b l ih =>
    intro a mem hfit hx
    rw [List.length_cons] at hfit hx
    have hnext : (a + 1).toNat = a.toNat + 1 := toNat_succ (by omega)
    rw [writeBytes, ih (by omega) (by omega), Function.update_of_ne (by omega)]

/-- What was written can be read. -/
theorem holds_writeBytes : ∀ {l : List UInt8} {a : BitVec w} {mem : Memory},
    a.toNat + l.length < 2 ^ w → Holds (writeBytes mem a l) a.toNat l := by
  intro l
  induction l with
  | nil => exact fun _ => trivial
  | cons b l ih =>
    intro a mem hfit
    rw [List.length_cons] at hfit
    have hnext : (a + 1).toNat = a.toNat + 1 := toNat_succ (by omega)
    refine ⟨?_, ?_⟩
    · rw [writeBytes, writeBytes_apart (by omega) (.inl (by omega)), Function.update_self]
    · rw [← hnext]
      exact ih (by omega)

/-- Writes below an address do not change it. -/
theorem writeAll_above : ∀ {cs : List (Chunk w)} {top : Nat} {mem : Memory},
    Descends top (cs.map Chunk.span) bottom → top < 2 ^ w → top ≤ x →
    writeAll mem cs x = mem x := by
  intro cs
  induction cs with
  | nil => exact fun _ _ _ => rfl
  | cons c cs ih =>
    intro top mem h htop hx
    have hlow : c.base.toNat + c.bytes.length ≤ top := h.1
    have hbase : c.span.lo = c.base.toNat := rfl
    rw [writeAll, List.foldl_cons]
    refine (ih h.2 c.base.isLt (by omega)).trans ?_
    exact writeBytes_apart (by omega) (.inr (by omega))

/-- Each write is there when all have been made: the later ones are below it. -/
theorem holds_writeAll : ∀ {cs : List (Chunk w)} {top : Nat} {mem : Memory} {c : Chunk w},
    Descends top (cs.map Chunk.span) bottom → top < 2 ^ w → c ∈ cs →
    Holds (writeAll mem cs) c.base.toNat c.bytes := by
  intro cs
  induction cs with
  | nil => exact fun _ _ hc => absurd hc List.not_mem_nil
  | cons d cs ih =>
    intro top mem c h htop hc
    obtain rfl | hc := List.mem_cons.mp hc
    · have hfit : c.base.toNat + c.bytes.length < 2 ^ w := lt_of_le_of_lt h.1 htop
      have hlater : AgreeOn c.base.toNat c.bytes.length (writeChunk mem c)
          (writeAll mem (c :: cs)) :=
        fun x hlo _ => writeAll_above h.2 c.base.isLt hlo
      exact (holds_writeBytes hfit).congr hlater
    · exact ih h.2 d.base.isLt hc

/-- The bytes of writes that descend are between the bounds. -/
theorem Descends.addr_mem {cs : List (Chunk w)} {c : Chunk w}
    (h : Descends top (cs.map Chunk.span) bottom) (htop : top < 2 ^ w) (hc : c ∈ cs) {i : Nat}
    (hi : i < c.bytes.length) : bottom ≤ c.addr i ∧ c.addr i < top := by
  have hin := h.inside (List.mem_map_of_mem hc)
  have hlo : bottom ≤ c.base.toNat := hin.1
  have hhi : c.base.toNat + c.bytes.length ≤ top := hin.2
  rw [Chunk.addr_of_lt (by omega)]
  omega

/-! ### Words -/

/-- The bytes of words that stand one after the other. -/
def wordsBytes (vs : List (BitVec 64)) : List UInt8 := vs.flatMap fun v => bytesOf 8 v.toNat

theorem length_wordsBytes (vs : List (BitVec 64)) : (wordsBytes vs).length = 8 * vs.length := by
  induction vs with
  | nil => rfl
  | cons v vs ih =>
    have hcons : wordsBytes (v :: vs) = bytesOf 8 v.toNat ++ wordsBytes vs := rfl
    rw [hcons, List.length_append, length_bytesOf, ih, List.length_cons]
    omega

/-- The word that is read at a pointer. -/
def loadWord (mem : Memory) (a : BitVec 64) : BitVec 64 := BitVec.ofNat 64 (load mem a.toNat 8)

theorem Holds.word {v : BitVec 64} {a : Nat} (h : Holds mem a (bytesOf 8 v.toNat)) :
    Lib.load mem a 8 = v.toNat := by
  rw [h.load]
  exact Nat.mod_eq_of_lt v.isLt

/-- A word of an array of words. -/
theorem Holds.word_of_getElem? : ∀ {vs : List (BitVec 64)} {a i : Nat} {v : BitVec 64},
    Holds mem a (wordsBytes vs) → vs[i]? = some v → Lib.load mem (a + 8 * i) 8 = v.toNat := by
  intro vs
  induction vs with
  | nil => exact fun _ hv => nomatch hv
  | cons u vs ih =>
    intro a i v h hv
    obtain ⟨hu, hvs⟩ := holds_append.mp h
    cases i with
    | zero =>
      obtain rfl : u = v := Option.some.inj hv
      exact hu.word
    | succ i =>
      rw [length_bytesOf] at hvs
      have hnext : a + 8 * (i + 1) = a + 8 + 8 * i := by omega
      rw [hnext]
      exact ih hvs hv

/-- `push`: the pointer moves down a word, and the word is written there. -/
def push (sp v : BitVec 64) : Chunk 64 := ⟨sp - 8, bytesOf 8 v.toNat⟩

/-- One `push` after another. -/
def pushAll : BitVec 64 → List (BitVec 64) → List (Chunk 64)
  | _, [] => []
  | sp, v :: vs => push sp v :: pushAll (sp - 8) vs

/-- The stack pointer after `n` words. -/
def pushed (sp : BitVec 64) (n : Nat) : BitVec 64 := sp - BitVec.ofNat 64 (8 * n)

/-- The words from a pointer on upwards. -/
def words (mem : Memory) (sp : BitVec 64) : Nat → List (BitVec 64)
  | 0 => []
  | n + 1 => loadWord mem sp :: words mem (sp + 8) n

@[simp] theorem pushed_zero (sp : BitVec 64) : pushed sp 0 = sp := BitVec.sub_zero sp

theorem pushed_pushed (sp : BitVec 64) (m n : Nat) :
    pushed (pushed sp m) n = pushed sp (m + n) := by
  rw [pushed, pushed, pushed, sub_ofNat_sub_ofNat, Nat.mul_add]

theorem pushed_succ (sp : BitVec 64) (n : Nat) : pushed sp (n + 1) = pushed (sp - 8) n := by
  rw [Nat.add_comm]
  exact (pushed_pushed sp 1 n).symm

theorem pushAll_append : ∀ {vs us : List (BitVec 64)} {sp : BitVec 64},
    pushAll sp (vs ++ us) = pushAll sp vs ++ pushAll (pushed sp vs.length) us := by
  intro vs us
  induction vs with
  | nil =>
    intro sp
    rw [List.nil_append, List.length_nil, pushed_zero]
    rfl
  | cons v vs ih =>
    intro sp
    rw [List.cons_append, pushAll, ih, List.length_cons, pushed_succ]
    rfl

theorem words_succ : ∀ (n : Nat) (sp : BitVec 64), words mem sp (n + 1) =
    words mem sp n ++ [loadWord mem (sp + BitVec.ofNat 64 (8 * n))] := by
  intro n
  induction n with
  | zero =>
    intro sp
    rw [words, words, words, Nat.mul_zero, BitVec.add_zero, List.nil_append]
  | succ n ih =>
    intro sp
    have hsum : sp + BitVec.ofNat 64 (8 * (n + 1)) = sp + 8 + BitVec.ofNat 64 (8 * n) := by
      rw [Nat.mul_succ, Nat.add_comm, BitVec.ofNat_add, ← BitVec.add_assoc]
      rfl
    rw [words, ih, words, List.cons_append, hsum]

/-- The last word pushed is where the pointer ends. -/
theorem exists_mem_pushAll {vs : List (BitVec 64)} (sp : BitVec 64) (h : vs ≠ []) :
    ∃ c ∈ pushAll sp vs, c.base = pushed sp vs.length ∧ 0 < c.bytes.length := by
  obtain ⟨us, v, rfl⟩ := List.eq_nil_or_concat vs |>.resolve_left h
  rw [List.concat_eq_append, pushAll_append, List.length_append]
  refine ⟨push (pushed sp us.length) v, List.mem_append_right _ List.mem_cons_self, ?_, ?_⟩
  · exact pushed_pushed sp us.length 1
  · rw [push, length_bytesOf]
    decide

/-- The words pushed are read in the opposite order. -/
theorem words_pushAll : ∀ {vs : List (BitVec 64)} {sp : BitVec 64},
    (∀ c ∈ pushAll sp vs, Holds mem c.base.toNat c.bytes) →
    words mem (pushed sp vs.length) vs.length = vs.reverse := by
  intro vs
  induction vs with
  | nil => exact fun _ => rfl
  | cons v vs ih =>
    intro sp h
    have hback : pushed sp (vs.length + 1) + BitVec.ofNat 64 (8 * vs.length) = sp - 8 := by
      rw [pushed_succ, pushed, BitVec.sub_add_cancel]
    have hload : load mem (sp - 8).toNat 8 = v.toNat := (h (push sp v) List.mem_cons_self).word
    have hv : loadWord mem (sp - 8) = v := by
      rw [loadWord, hload, BitVec.ofNat_toNat, BitVec.setWidth_eq]
    rw [List.length_cons, words_succ, hback, hv, pushed_succ, List.reverse_cons,
      ih fun c hc => h c (List.mem_cons_of_mem _ hc)]

theorem toNat_pushed {sp : BitVec 64} {n : Nat} (h : 8 * n ≤ sp.toNat) :
    (pushed sp n).toNat = sp.toNat - 8 * n := toNat_sub_ofNat h

/-- Words that fit below a pointer. -/
theorem Descends.pushAll : ∀ {vs : List (BitVec 64)} {sp : BitVec 64}, 8 * vs.length ≤ sp.toNat →
    Descends sp.toNat ((pushAll sp vs).map Chunk.span) (pushed sp vs.length).toNat := by
  intro vs
  induction vs with
  | nil =>
    intro sp _
    rw [List.length_nil, pushed_zero]
    exact le_refl _
  | cons v vs ih =>
    intro sp h
    rw [List.length_cons] at h
    have hword : 8 ≤ sp.toNat := by omega
    have hnext : (sp - 8).toNat = sp.toNat - 8 := toNat_sub_ofNat hword
    have hhi : (push sp v).span.hi = (sp - 8).toNat + 8 := by
      rw [Span.hi, Chunk.span, push, length_bytesOf]
    refine ⟨?_, ?_⟩
    · rw [hhi, hnext, Nat.sub_add_cancel hword]
    · have hroom : 8 * vs.length ≤ (sp - 8).toNat := by omega
      rw [List.length_cons, pushed_succ]
      exact ih hroom

end TpeSo.Lib
