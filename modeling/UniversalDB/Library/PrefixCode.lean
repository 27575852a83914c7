import Mathlib.Data.List.Basic
import Mathlib.Data.List.Infix

/-! # Prefix codes

A code no word of which begins another one is read off a stream from the front: what has
been read are the first letters of the text, whatever follows. -/

variable {α β : Type*}

/-- A code of the letters that meet `ok`. -/
structure PrefixCode (ok : α → Prop) (word : α → List β) : Prop where
  ne_nil : ∀ a, word a ≠ []
  eq_of_isPrefix : ∀ a b, ok a → ok b → word a <+: word b → a = b

namespace PrefixCode

variable {ok : α → Prop} {word : α → List β}

/-- Of two words that begin one stream, neither is the longer one. -/
theorem eq_of_isPrefix_both (h : PrefixCode ok word) {a b : α} (ha : ok a) (hb : ok b)
    {stream : List β} (hfirst : word a <+: stream) (hsecond : word b <+: stream) : a = b := by
  rcases List.prefix_or_prefix_of_prefix hfirst hsecond with hle | hle
  · exact h.eq_of_isPrefix a b ha hb hle
  · exact (h.eq_of_isPrefix b a hb ha hle).symm

/-- A text whose code begins the code of another one begins that text. -/
theorem isPrefix_of_flatMap (h : PrefixCode ok word) {text other : List α}
    (htext : ∀ a ∈ text, ok a) (hother : ∀ b ∈ other, ok b)
    (hbegin : text.flatMap word <+: other.flatMap word) : text <+: other := by
  induction text generalizing other with
  | nil => exact List.nil_prefix
  | cons a text ih =>
      rw [List.flatMap_cons] at hbegin
      have hword : word a <+: other.flatMap word :=
        (List.prefix_append _ _).trans hbegin
      cases other with
      | nil => exact absurd (List.prefix_nil.mp hword) (h.ne_nil a)
      | cons b other =>
          rw [List.flatMap_cons] at hbegin hword
          obtain rfl : a = b :=
            h.eq_of_isPrefix_both (htext a List.mem_cons_self) (hother b List.mem_cons_self)
              hword (List.prefix_append _ _)
          rw [List.prefix_append_right_inj] at hbegin
          exact List.cons_prefix_cons.mpr ⟨rfl, ih
            (List.forall_mem_of_forall_mem_cons htext)
            (List.forall_mem_of_forall_mem_cons hother) hbegin⟩

theorem eq_of_flatMap_eq (h : PrefixCode ok word) {text other : List α}
    (htext : ∀ a ∈ text, ok a) (hother : ∀ b ∈ other, ok b)
    (heq : text.flatMap word = other.flatMap word) : text = other := by
  have hle := h.isPrefix_of_flatMap htext hother (heq ▸ List.prefix_rfl)
  have hge := h.isPrefix_of_flatMap hother htext (heq ▸ List.prefix_rfl)
  exact hle.eq_of_length_le hge.length_le

/-- A word is its length in a header of a fixed width, and the letters. -/
theorem of_header {width : ℕ} {header : ℕ → List β} {p : ℕ → Prop}
    (hpos : 0 < width) (hwidth : ∀ n, (header n).length = width)
    (hinj : ∀ m n, p m → p n → header m = header n → m = n) :
    PrefixCode (fun message : List β => p message.length)
      (fun message => header message.length ++ message) where
  ne_nil message hnil := by
    have hlength := hwidth message.length
    rw [(List.append_eq_nil_iff.mp hnil).1] at hlength
    exact absurd hlength (Nat.ne_of_lt hpos)
  eq_of_isPrefix a b ha hb hbegin := by
    obtain ⟨rest, hrest⟩ := hbegin
    rw [List.append_assoc] at hrest
    obtain ⟨hheader, hbody⟩ :=
      List.append_inj hrest ((hwidth a.length).trans (hwidth b.length).symm)
    have hlength : a.length = b.length := hinj _ _ ha hb hheader
    exact (List.append_inj (hbody.trans (List.append_nil b).symm) hlength).1

end PrefixCode
