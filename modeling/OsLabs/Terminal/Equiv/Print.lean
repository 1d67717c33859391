import OsLabs.Terminal.Print
import OsLabs.Terminal.Equiv.Itoa

/-!
# `PRINT`

What is not a conversion is printed as it is (`print_append`), and `%d` prints the decimal numeral
of an `int` (`prints_int`).
-/

namespace OsLabs.Terminal

variable {F : Type} (ftoa : F → Option (List Char))

theorem print_char {c : Char} (hc : c ≠ '%') (format : List Char) (args : List (Value F))
    (u : Uart) : print ftoa (c :: format) args u = print ftoa format args (uartPutc c u) := by
  rw [print]
  all_goals
    rintro cs rfl
    exact absurd rfl hc

/-- What is not a conversion is printed as it is. -/
theorem print_append {text : List Char} (htext : '%' ∉ text) (format : List Char)
    (args : List (Value F)) (u : Uart) :
    print ftoa (text ++ format) args u = print ftoa format args { u with tx := u.tx ++ text } := by
  induction text generalizing u with
  | nil => rw [List.nil_append, List.append_nil]
  | cons c text ih =>
    rw [List.mem_cons, not_or] at htext
    rw [List.cons_append, print_char ftoa (fun h => htext.1 h.symm), ih htext.2, uartPutc,
      List.append_assoc]
    rfl

theorem print_text {text : List Char} (htext : '%' ∉ text) (u : Uart) :
    print ftoa text [] u = some { u with tx := u.tx ++ text } := by
  have h := print_append ftoa htext [] [] u
  rw [List.append_nil] at h
  exact h

/-- A buffer up to its null character. -/
theorem cString_append_nul {text : List Char} (htext : NUL ∉ text) :
    cString (text ++ [NUL]) = text := by
  unfold cString
  rw [List.takeWhile_append_of_pos, List.takeWhile_cons_of_neg (by simp), List.append_nil]
  intro c hc
  simpa using ne_of_mem_of_not_mem hc htext

/-- An `int` is printed as its decimal numeral. -/
theorem putConversion_itoa {n : ℤ} (hmin : -2147483648 < n) (hmax : n ≤ 2147483647) (u : Uart) :
    putConversion (itoa n) u = some { u with tx := u.tx ++ decimal n } := by
  have hnul : NUL ∉ decimal n := by
    intro h
    obtain hdigit | heq := mem_decimal h
    · exact absurd hdigit (by decide)
    · exact absurd heq (by decide)
  have hlen : (decimal n ++ [NUL]).length ≤ CONVERSION_SIZE := by
    have := length_decimal (n := n) (by omega) hmax
    rw [List.length_append, List.length_singleton, CONVERSION_SIZE]
    omega
  rw [itoa_eq hmin hmax]
  show (if (decimal n ++ [NUL]).length ≤ CONVERSION_SIZE then _ else none) = _
  rw [if_pos hlen, uartPuts, cString_append_nul hnul]

/-- A conversion prints this text. -/
def Prints (spec : Char) (value : Value F) (text : List Char) : Prop :=
  ∀ format args u, print ftoa ('%' :: spec :: format) (value :: args) u
    = print ftoa format args { u with tx := u.tx ++ text }

theorem prints_int {n : ℤ} (hrange : |n| ≤ 2147483647) : Prints ftoa 'd' (.int n) (decimal n) := by
  intro format args u
  obtain ⟨hmin, hmax⟩ := abs_le.mp hrange
  rw [print, putConversion_itoa (by omega) hmax]
  rfl

end OsLabs.Terminal
