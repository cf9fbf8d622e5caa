import BriskDB.Lib.Bytes
import BriskDB.Lib.Result

/-!
# Self-delimiting words and bounded writers

A code is self-delimiting when equal texts that start with two of its words start
with the same word. Words are compared through any continuation, so the rules
compose along concatenation: fixed widths, length-prefixed blocks, counted
sequences.
-/

namespace PrefixCode

open Bytes List

universe u v

variable {α : Type u} {β : Type v}

/-- Equal texts that start with the two words satisfy `P` and go on equally. -/
def Separates (P : Prop) (left right : List β) : Prop :=
  ∀ leftRest rightRest, left ++ leftRest = right ++ rightRest → P ∧ leftRest = rightRest

namespace Separates

variable {P Q : Prop} {x y x' y' : List β}

theorem imp (h : Separates P x y) (himp : P → Q) : Separates Q x y := by
  intro r s heq
  obtain ⟨hP, hrest⟩ := h r s heq
  exact ⟨himp hP, hrest⟩

theorem of_eq (h : Separates P x y) (heq : x = y) : P :=
  (h [] [] (by rw [heq])).1

theorem of_length_eq (hlength : x.length = y.length) : Separates (x = y) x y := by
  intro r s heq
  exact append_inj heq hlength

theorem append (hfirst : Separates P x y) (hsecond : P → Separates Q x' y') :
    Separates (P ∧ Q) (x ++ x') (y ++ y') := by
  intro r s heq
  rw [append_assoc, append_assoc] at heq
  obtain ⟨hP, hrest⟩ := hfirst _ _ heq
  obtain ⟨hQ, hrest'⟩ := hsecond hP r s hrest
  exact ⟨⟨hP, hQ⟩, hrest'⟩

theorem cons {a b : β} (h : a = b → Separates P x y) : Separates (a = b ∧ P) (a :: x) (b :: y) := by
  intro r s heq
  rw [cons_append, cons_append, List.cons.injEq] at heq
  obtain ⟨hP, hrest⟩ := h heq.1 r s heq.2
  exact ⟨⟨heq.1, hP⟩, hrest⟩

theorem tagged {a : β} (h : Separates P x y) : Separates P (a :: x) (a :: y) :=
  (cons fun _ => h).imp And.right

theorem of_head_ne {a b : β} (h : a ≠ b) : Separates P (a :: x) (b :: y) := by
  intro r s heq
  exact absurd (List.cons.inj heq).1 h

theorem flatMap {code : α → List β} {xs ys : List α} (hlength : xs.length = ys.length)
    (h : ∀ a ∈ xs, ∀ b ∈ ys, Separates (a = b) (code a) (code b)) :
    Separates (xs = ys) (xs.flatMap code) (ys.flatMap code) := by
  induction xs generalizing ys with
  | nil =>
    cases ys with
    | nil => exact fun r s heq => ⟨rfl, heq⟩
    | cons b ys => cases hlength
  | cons a xs ih =>
    cases ys with
    | nil => cases hlength
    | cons b ys =>
      rw [flatMap_cons, flatMap_cons]
      have hhead := h a mem_cons_self b mem_cons_self
      have htail := ih (Nat.succ.inj hlength) fun a' ha b' hb =>
        h a' (mem_cons_of_mem a ha) b' (mem_cons_of_mem b hb)
      refine (hhead.append fun _ => htail).imp ?_
      simp

end Separates

theorem separates_ofBe {width m n : Nat} (hm : m < 256 ^ width) (hn : n < 256 ^ width) :
    Separates (m = n) (ofBe width m) (ofBe width n) := by
  refine (Separates.of_length_eq (by simp)).imp ?_
  grind [toBe_ofBe_of_lt]

theorem separates_ofLe {width m n : Nat} (hm : m < 256 ^ width) (hn : n < 256 ^ width) :
    Separates (m = n) (ofLe width m) (ofLe width n) := by
  refine (Separates.of_length_eq (by simp)).imp ?_
  grind [toLe_ofLe_of_lt]

/-- A block of bytes behind its length, written with four bytes. -/
def block (bytes : List UInt8) : List UInt8 := ofBe 4 bytes.length ++ bytes

theorem separates_block {x y : List UInt8} (hx : x.length < 256 ^ 4) (hy : y.length < 256 ^ 4) :
    Separates (x = y) (block x) (block y) :=
  ((separates_ofBe hx hy).append fun hlength => .of_length_eq hlength).imp And.right

theorem separates_sized {x y : List UInt8} (hx : x.length < 256 ^ 8) (hy : y.length < 256 ^ 8) :
    Separates (x = y) (ofLe 8 x.length ++ x) (ofLe 8 y.length ++ y) :=
  ((separates_ofLe hx hy).append fun hlength => .of_length_eq hlength).imp And.right

theorem separates_counted {code : α → List UInt8} {xs ys : List α} (hxs : xs.length < 256 ^ 4)
    (hys : ys.length < 256 ^ 4) (h : ∀ a ∈ xs, ∀ b ∈ ys, Separates (a = b) (code a) (code b)) :
    Separates (xs = ys) (ofBe 4 xs.length ++ xs.flatMap code)
      (ofBe 4 ys.length ++ ys.flatMap code) :=
  ((separates_ofBe hxs hys).append fun hlength => .flatMap hlength h).imp And.right

section Writers

variable {ε : Type v} {P Q : Prop} {limit : Nat}

/-- A successful run of the writer appends exactly the word, stays within the
limit and ensures `P`. -/
def Emits (limit : Nat) (writer : List β → Except ε (List β)) (word : List β) (P : Prop) : Prop :=
  ∀ output result, output.length ≤ limit → writer output = .ok result →
    result = output ++ word ∧ result.length ≤ limit ∧ P

namespace Emits

variable {first second : List β → Except ε (List β)} {x y : List β}

theorem imp (h : Emits limit first x P) (himp : P → Q) : Emits limit first x Q := by
  intro output result houtput hrun
  obtain ⟨hresult, hlength, hP⟩ := h output result houtput hrun
  exact ⟨hresult, hlength, himp hP⟩

theorem skip : Emits limit (fun output => (.ok output : Except ε (List β))) [] True := by
  intro output result houtput hrun
  grind

theorem bind (hfirst : Emits limit first x P) (hsecond : P → Emits limit second y Q) :
    Emits limit (fun output => first output >>= second) (x ++ y) (P ∧ Q) := by
  intro output result houtput hrun
  obtain ⟨middle, hmiddle, hrest⟩ := Result.bind_eq_ok.mp hrun
  obtain ⟨rfl, hlength, hP⟩ := hfirst output middle houtput hmiddle
  obtain ⟨rfl, hlength', hQ⟩ := hsecond hP _ result hlength hrest
  exact ⟨append_assoc .., hlength', hP, hQ⟩

theorem guard {check : Except ε PUnit} (hcheck : check = .ok ⟨⟩ → P)
    (h : P → Emits limit first x Q) :
    Emits limit (fun output => check >>= fun _ => first output) x (P ∧ Q) := by
  intro output result houtput hrun
  obtain ⟨⟨⟩, hok, hrest⟩ := Result.bind_eq_ok.mp hrun
  obtain ⟨hresult, hlength, hQ⟩ := h (hcheck hok) output result houtput hrest
  exact ⟨hresult, hlength, hcheck hok, hQ⟩

end Emits

end Writers

end PrefixCode
