import TsOs.Fat.Paths

/-!
# Three scanners of a path

`fat_open` splits a new path with `get_basedir` and `get_filename`, and `fat16_find` takes
the same path apart with `strtok`. The base directory and the name are the tokens of the
path, unless it ends with two slashes: then the slash before the last one counts as the
start of a name, and the base directory is the whole path.
-/

namespace TsOs.Fat

variable {path rest : List UInt8}

/-- The tokens that the loop of `fat16_find` takes from a path, at most `n` of them. -/
def tokensLoop : Nat → List UInt8 → List (List UInt8)
  | 0, _ => []
  | n + 1, path =>
      let (seg, next) := strtok path [slash]
      if seg = [] then []
      else seg :: match next with
        | none => []
        | some next => tokensLoop n next

def tokens (path : List UInt8) : List (List UInt8) := tokensLoop (path.length + 1) path

theorem tokensLoop_eq {n : Nat} (h : path.length < n) : tokensLoop n path = components path := by
  induction n generalizing path with
  | zero => omega
  | succ n ih =>
      rw [tokensLoop]
      rcases strtok_slash path with ⟨hnil, htok⟩ | ⟨c, rest, next, hcons, htok, hc, hnext⟩
      · rw [hnil, htok]
        rfl
      · rw [hcons, htok]
        dsimp only
        rw [if_neg hc]
        rcases hnext with ⟨rfl, rfl⟩ | ⟨p, rfl, hlt, rfl⟩
        · rfl
        · exact congrArg (List.cons c) (ih (by omega))

theorem tokens_eq (path : List UInt8) : tokens path = components path := tokensLoop_eq (Nat.lt_succ_self _)

/-- The three scanners agree on an absolute path with a component exactly when it does not end with
two slashes. -/
theorem split_tokens_iff (habs : path.head? = some slash) (h : tokens path ≠ []) :
    (∃ base name, getBasedir path = some base ∧ getFilename path = some name ∧
      tokens base ++ [name] = tokens path) ↔ ¬[slash, slash] <:+ path := by
  obtain ⟨rest, rfl⟩ : ∃ rest, path = slash :: rest := ⟨path.tail, (List.cons_head?_tail habs).symm⟩
  rw [tokens_eq] at h
  obtain ⟨base, name, hbase, hname, -, hsplit⟩ := split_path h
  simp only [tokens_eq]
  constructor
  · rintro ⟨base', name', hbase', hname', hagree⟩ hend
    obtain rfl := Option.some.inj (hbase.symm.trans hbase')
    rw [if_pos hend] at hsplit
    have hlen := congrArg List.length hagree
    rw [hsplit, List.length_append, List.length_singleton] at hlen
    omega
  · intro hend
    rw [if_neg hend] at hsplit
    exact ⟨base, name, hbase, hname, hsplit.symm⟩

theorem split_tokens_sample :
    (∃ base name, getBasedir [47, 97, 47, 98, 47] = some base ∧
      getFilename [47, 97, 47, 98, 47] = some name ∧
      tokens base ++ [name] = tokens [47, 97, 47, 98, 47]) ↔ ¬[slash, slash] <:+ [47, 97, 47, 98, 47] :=
  split_tokens_iff rfl (by decide)

/-- The path `/a//` has one token, but is split into the directory `/a/` and the name `a`. -/
theorem split_tokens_twice :
    tokens [47, 97, 47, 47] = [[97]] ∧ getBasedir [47, 97, 47, 47] = some [47, 97, 47] ∧
      getFilename [47, 97, 47, 47] = some [97] ∧ tokens [47, 97, 47] ++ [[97]] ≠ [[97]] := by
  decide

end TsOs.Fat
