import MathMarkup.Proofs.Normal.Modes

/-!
# What a span covers

What belongs to a command besides its name ends with a closing brace (`getLast?_commandTail`). Behind it
the walk over the tokens goes on as at the start of a text, unless a comment is open there: the rest of
its line is written first (`protectFrom_covered_close`).
-/

namespace MathMarkup.Tex

open Text

variable {m : Mode} {kind : TokenKind} {c : Char} {depth k : Nat} {s x name group body rest : List Char}

/-! ## Command spans -/

theorem getLast?_of_map_append {o : Option (List Char × List Char)}
    (ih : ∀ group rest, o = some (group, rest) → group.getLast? = some '}') (x : List Char)
    (h : (o.map fun (group, rest) => (x ++ group, rest)) = some (group, rest)) : group.getLast? = some '}' := by
  rw [Option.map_eq_some_iff] at h
  obtain ⟨⟨g, r⟩, ho, hr⟩ := h
  obtain ⟨rfl, -⟩ := Prod.mk.inj hr
  rw [List.getLast?_append, ih g r ho, Option.some_or]

theorem getLast?_of_closeGroups? (h : closeGroups? depth s = some (group, rest)) : group.getLast? = some '}' := by
  fun_induction closeGroups? depth s generalizing group rest with
  | case1 => cases h
  | case2 => cases h
  | case3 depth e s ih => exact getLast?_of_map_append (fun _ _ => ih) ['\\', e] h
  | case4 depth c s hslash hclose =>
    obtain ⟨rfl, -⟩ := Prod.mk.inj (Option.some.inj h)
    simp only [Bool.and_eq_true, decide_eq_true_eq] at hclose
    rw [hclose.1]
    rfl
  | case5 depth c s =>
    rename_i ih
    exact getLast?_of_map_append (fun _ _ => ih) [c] h

theorem getLast?_of_closeEnvironments? (h : closeEnvironments? name depth s = some (body, rest)) :
    body.getLast? = some '}' := by
  fun_induction closeEnvironments? name depth s generalizing body rest with
  | case1 => cases h
  | case2 depth c s rest' hc hd =>
    obtain ⟨rfl, -⟩ := Prod.mk.inj (Option.some.inj h)
    rw [endOf, List.getLast?_concat]
  | case3 depth c s rest' hc hd ih => exact getLast?_of_map_append (fun _ _ => ih) (endOf name) h
  | case4 depth c s hc rest' ho ih => exact getLast?_of_map_append (fun _ _ => ih) (beginOf name) h
  | case5 depth c s hc ho ih => exact getLast?_of_map_append (fun _ _ => ih) [c] h

theorem getLast?_splitGroups (s : List Char) : ∀ c ∈ (splitGroups s).1.flatten.getLast?, c = '}' := by
  fun_induction splitGroups s with
  | case1 => simp
  | case2 s group rest h groups rest' hrec ih =>
    rw [hrec] at ih
    intro c hc
    rw [List.flatten_cons, List.getLast?_append] at hc
    cases hlast : groups.flatten.getLast? with
    | some d =>
      rw [hlast, Option.some_or] at hc
      exact Option.some.inj hc ▸ ih d hlast
    | none =>
      rw [splitGroup?.eq_def] at h
      split at h
      · rw [Option.map_eq_some_iff] at h
        obtain ⟨⟨g, r⟩, hclose, hr⟩ := h
        obtain ⟨rfl, -⟩ := Prod.mk.inj hr
        have hbrace := getLast?_of_closeGroups? hclose
        have hne : g ≠ [] := by
          rintro rfl
          cases hbrace
        rw [hlast, Option.none_or, List.getLast?_cons_of_ne_nil hne, hbrace] at hc
        exact (Option.some.inj hc).symm
      · cases h

/-- What belongs to a command besides its name ends with a brace. -/
theorem getLast?_commandTail (command rest : List Char) : ∀ c ∈ (commandTail command rest).getLast?, c = '}' := by
  have hgroups := getLast?_splitGroups rest
  rw [commandTail]
  simp only
  generalize splitGroups rest = r at hgroups ⊢
  obtain ⟨groups, after⟩ := r
  cases groups with
  | nil => simp
  | cons group groups =>
    simp only
    split
    · split
      · rename_i body rest' henv
        rw [List.getLast?_append, getLast?_of_closeEnvironments? henv, Option.some_or]
        exact fun c hc => (Option.some.inj hc).symm
      · exact hgroups
    · exact hgroups

/-! ## The walk behind a span -/

/-- How the walk goes on behind a span that leaves the mode `m`: the rest of a comment is written as it
stands. -/
def resume (m : Mode) (n : Nat) (s : List Char) : List (List Char) × List Char :=
  if m = .comment then writeFirst (s.takeWhile isInLine) (Placeholders.protectFrom n 0 (s.dropWhile isInLine))
  else Placeholders.protectFrom n 0 s

theorem resume_of_ne (hm : m ≠ .comment) (n : Nat) (s : List Char) : resume m n s = Placeholders.protectFrom n 0 s :=
  if_neg hm

theorem resume_comment (n : Nat) (s : List Char) : resume .comment n s =
    writeFirst (s.takeWhile isInLine) (Placeholders.protectFrom n 0 (s.dropWhile isInLine)) := if_pos rfl

/-- A percent sign that is covered takes the rest of its line along. -/
theorem protectFrom_percent (n k : Nat) (s : List Char) : Placeholders.protectFrom n (k + 1) ('%' :: s) =
    writeFirst ((s.takeWhile isInLine).drop k)
      (Placeholders.protectFrom n (k - (s.takeWhile isInLine).length) (s.dropWhile isInLine)) := by
  rw [protectFrom_succ (munch_percent s), take_length_takeWhile, drop_length_takeWhile]

/-- A token that is no comment does not reach behind a brace, and is passed. -/
theorem protectFrom_token (hpercent : c ≠ '%') (hlast : (c :: s).getLast? = some '}') (hm : munch c s = (kind, k))
    (n : Nat) (y : List Char) : Placeholders.protectFrom n (c :: s).length (c :: s ++ y) =
      Placeholders.protectFrom n (s.drop k).length (s.drop k ++ y) := by
  have hle := munch_le_length hm
  have hmunch : munch c (s ++ y) = (kind, k) := by rw [munch_append_close hpercent hlast, hm]
  rw [List.length_cons, List.cons_append, protectFrom_succ hmunch, List.take_append_of_le_length hle,
    List.drop_append_of_le_length hle, List.drop_eq_nil_of_le (List.length_take_le' k s), writeFirst_nil,
    List.length_drop]

/-- A comment that ends inside of what is covered is passed. -/
theorem protectFrom_comment {d : Char} (hx : ∀ c ∈ x, isInLine c = true) (hd : isInLine d = false) (n : Nat)
    (b y : List Char) : Placeholders.protectFrom n ('%' :: (x ++ d :: b)).length ('%' :: (x ++ d :: b) ++ y) =
      Placeholders.protectFrom n (d :: b).length (d :: b ++ y) := by
  have hend : ∀ e ∈ (d :: b ++ y).head?, isInLine e = false := fun e he => Option.some.inj he ▸ hd
  obtain ⟨htake, hdrop⟩ := takeWhile_append_of_head hx hend
  rw [List.length_cons, List.cons_append, protectFrom_percent, List.append_assoc, htake, hdrop, List.length_append,
    Nat.add_sub_cancel_left, List.drop_eq_nil_of_le (Nat.le_add_right _ _), writeFirst_nil]

/-- **Behind a span** that ends with a brace the walk goes on as its last mode tells. -/
theorem protectFrom_covered_close (hlast : x.getLast? = some '}') (n : Nat) (y : List Char) :
    Placeholders.protectFrom n x.length (x ++ y) = resume (Mode.plain.after x) n y := by
  induction hlen : x.length using Nat.strongRecOn generalizing x with
  | ind len ih =>
    subst hlen
    -- what is left of the span behind its first token
    have hrest : ∀ a b, a ≠ [] → x = a ++ b → b ≠ [] → Mode.plain.after x = Mode.plain.after b →
        Placeholders.protectFrom n b.length (b ++ y) = resume (Mode.plain.after x) n y := by
      intro a b ha hx hb hmode
      have hlt : b.length < x.length := by
        have := List.length_pos_iff.2 ha
        rw [hx, List.length_append]
        omega
      have hend : b.getLast? = some '}' := by
        rwa [hx, List.getLast?_append_of_ne_nil a hb] at hlast
      rw [ih b.length hlt hend rfl, hmode]
    obtain ⟨c, t, rfl⟩ : ∃ c t, x = c :: t := List.exists_cons_of_ne_nil (by rintro rfl; cases hlast)
    by_cases hpercent : c = '%'
    · subst hpercent
      rcases comment_cases t with ht | ⟨a, d, b, rfl, ha, hd⟩
      · have hcomment : Mode.plain.after ('%' :: t) = .comment := after_comment ht
        rw [List.length_cons, List.cons_append, protectFrom_percent, hcomment, resume_comment,
          List.takeWhile_append_of_pos ht, List.dropWhile_append_of_pos ht, List.drop_left, List.length_append,
          Nat.sub_eq_zero_of_le (Nat.le_add_right _ _)]
      · rw [protectFrom_comment ha hd]
        refine hrest ('%' :: a) (d :: b) (List.cons_ne_nil _ _) rfl (List.cons_ne_nil _ _) ?_
        have hcomment : Mode.plain.after ('%' :: a) = .comment := after_comment ha
        rw [← List.cons_append, after_append, hcomment, after_comment_cons hd]
    · cases hm : munch c t with
      | mk kind k =>
        have hcut : c :: t = c :: t.take k ++ t.drop k := by simp
        rw [protectFrom_token hpercent hlast hm]
        by_cases hend : t.drop k = []
        · -- the span is one token
          have hkind : kind ≠ .comment := fun hkind => hpercent ((munch_comment_iff hm).1 hkind)
          have hmode := (silent_token hm hkind).1.after_ne_comment
          rw [hcut, hend, List.append_nil, resume_of_ne hmode]
          rfl
        · exact hrest _ _ (List.cons_ne_nil _ _) hcut hend (after_drop hm hend)

end MathMarkup.Tex
