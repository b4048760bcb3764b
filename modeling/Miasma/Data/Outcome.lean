namespace Miasma.Data

/-! Results of fallible steps. -/

theorem bind_ok_iff {first : Except ε α} {next : α → Except ε β} :
    (first >>= next) = .ok result ↔ ∃ value, first = .ok value ∧ next value = .ok result := by
  cases first with
  | error | ok => simp [Bind.bind, Except.bind]

theorem check_ok_iff {next : Unit → Except ε α} :
    (check >>= next) = .ok result ↔ check = .ok () ∧ next () = .ok result := by
  cases check with
  | error | ok => simp [Bind.bind, Except.bind]

theorem ite_ok_iff [Decidable condition] {rest : Except ε α} :
    (if condition then .error e else rest) = .ok result ↔ ¬ condition ∧ rest = .ok result := by
  by_cases holds : condition <;> simp [holds]

end Miasma.Data
