import Cyclomatic.Proofs.Walk
import Cyclomatic.Proofs.Tree.Outlining
import Cyclomatic.Tree.Walk

/-! # The statements that are reached

Control falls through a list of statements if some path through it does not
leave the function. It is told here on the tree which lists of statements a
path falls through to. A list is known by its address, which says for each
construct around it which statement it is of its own list, and which part of
the construct is gone into.

The outline of a function goes through the same lists, block by block and
construct by construct. So what the outline lays down is found at exactly the
statements that are reached.
-/

namespace Cyclomatic

namespace Tree

open Outline

/-- The lists of statements right below a statement. -/
def parts (t : Tree) : List (List Tree) :=
  match t.kind with
  | .block => [t.statements]
  | .branch => [asStatements t.consequent, asStatements t.alternate]
  | .whileLoop | .doLoop | .forLoop => [asStatements t.body]
  | .switch => t.cases.map (·.statements)
  | .guarded =>
      [asStatements t.body, asStatements (t.handler.bind (·.body)), asStatements t.finalizer]
  | _ => []

/-- Some path through the statements does not leave the function. -/
inductive FallsThrough : List Tree → Prop
  | nil : FallsThrough []
  | straight {t ts} (hstraight : t.isStraight = true) (hstays : t.head.exits = false)
      (hrest : FallsThrough ts) : FallsThrough (t :: ts)
  | block {t ts} (hkind : t.kind = .block) (hinner : FallsThrough t.statements)
      (hrest : FallsThrough ts) : FallsThrough (t :: ts)
  | consequent {t ts} (hkind : t.kind = .branch)
      (hyes : FallsThrough (asStatements t.consequent)) (hrest : FallsThrough ts) :
      FallsThrough (t :: ts)
  | alternate {t ts} (hkind : t.kind = .branch)
      (hno : FallsThrough (asStatements t.alternate)) (hrest : FallsThrough ts) :
      FallsThrough (t :: ts)
  | loop {t ts} (hkind : t.kind = .whileLoop ∨ t.kind = .doLoop ∨ t.kind = .forLoop)
      (hrest : FallsThrough ts) : FallsThrough (t :: ts)
  | choice {t ts u} (hchoice : t.choice? = some u) (hrest : FallsThrough ts) :
      FallsThrough (t :: ts)
  | noCase {t ts} (hkind : t.kind = .switch) (htested : ∀ c ∈ t.cases, c.condition.isSome)
      (hrest : FallsThrough ts) : FallsThrough (t :: ts)
  | case {t ts c} (hkind : t.kind = .switch) (hc : c ∈ t.cases)
      (hcase : FallsThrough c.statements) (hrest : FallsThrough ts) : FallsThrough (t :: ts)
  | guarded {t ts} (hkind : t.kind = .guarded) (hbody : FallsThrough (asStatements t.body))
      (hfinal : FallsThrough (asStatements t.finalizer)) (hrest : FallsThrough ts) :
      FallsThrough (t :: ts)
  | caught {t ts h} (hkind : t.kind = .guarded) (hhandler : t.handler = some h)
      (hcaught : FallsThrough (asStatements h.body))
      (hfinal : FallsThrough (asStatements t.finalizer)) (hrest : FallsThrough ts) :
      FallsThrough (t :: ts)

/-- For each construct around a list of statements, from the outside in: the number of its
statement in its own list, and the number of the part. -/
abbrev Address := List (Nat × Nat)

/-- The lists of statements that control comes to, with their addresses. -/
inductive Reached (root : List Tree) : Address → List Tree → Prop
  | root : Reached root [] root
  | inside {a us i t k vs} (hlist : Reached root a us) (ht : us[i]? = some t)
      (hbefore : FallsThrough (us.take i)) (hpart : t.parts[k]? = some vs) :
      Reached root (a ++ [(i, k)]) vs

/-! ## Blocks and constructs at the front of a list -/

/-- The block that a list starts with, or else the construct. -/
def front : List Tree → List Tree
  | [] => []
  | [t] => [t]
  | t :: u :: ts =>
      if t.isStraight && !t.head.exits && u.isStraight then t :: front (u :: ts) else [t]

/-- What comes after the front. -/
def behind (ts : List Tree) : List Tree := ts.drop (front ts).length

theorem front_isPrefix (ts : List Tree) : front ts <+: ts := by
  fun_induction front ts with
  | case1 => exact List.prefix_refl _
  | case2 t => exact List.prefix_refl _
  | case3 t u ts _ ih => exact (List.prefix_cons_inj t).mpr ih
  | case4 t u ts => exact List.prefix_append [t] _

/-- A list is its front and what comes after. -/
theorem front_append_behind (ts : List Tree) : front ts ++ behind ts = ts :=
  List.prefix_iff_eq_append.mp (front_isPrefix ts)

/-- The front of a list is a construct or one block. -/
theorem front_cases (t : Tree) (ts : List Tree) :
    t.isStraight = false ∧ front (t :: ts) = [t] ∨
      ∃ more returns, front (t :: ts) = t :: more ∧ IsRun t more (behind (t :: ts)) returns := by
  induction ts generalizing t with
  | nil =>
      cases ht : t.isStraight with
      | false => exact .inl ⟨rfl, rfl⟩
      | true => exact .inr ⟨[], _, rfl, isRun_singleton ht nofun⟩
  | cons u ts ih =>
      cases ht : t.isStraight with
      | false => exact .inl ⟨rfl, by rw [front, ht]; rfl⟩
      | true =>
          by_cases hon : t.head.exits = false ∧ u.isStraight = true
          · have hfront : front (t :: u :: ts) = t :: front (u :: ts) := by
              rw [front, if_pos (by simp [ht, hon])]
            rcases ih u with ⟨hu, _⟩ | ⟨more, returns, hmore, hrun⟩
            · rw [hon.2] at hu
              cases hu
            · refine .inr ⟨u :: more, returns, by rw [hfront, hmore], ?_⟩
              have hbehind : behind (t :: u :: ts) = behind (u :: ts) := by
                rw [behind, hfront]
                rfl
              rw [hbehind]
              exact hrun.cons ht hon.1
          · have hfront : front (t :: u :: ts) = [t] := by
              rw [front, if_neg (by simpa [ht] using hon)]
            refine .inr ⟨[], t.head.exits, hfront, ?_⟩
            rw [behind, hfront]
            refine isRun_singleton ht fun hexits v hv => ?_
            obtain rfl : u = v := by simpa using hv
            simpa [hexits] using hon

/-- The front of a list that is not empty has its first statement. -/
theorem front_cons (t : Tree) (ts : List Tree) :
    ∃ more, front (t :: ts) = t :: more ∧ ts = more ++ behind (t :: ts) := by
  have hsplit := front_append_behind (t :: ts)
  rcases front_cases t ts with ⟨_, hfront⟩ | ⟨more, _, hfront, _⟩
  · rw [hfront] at hsplit
    exact ⟨[], hfront, (List.cons.inj hsplit).2.symm⟩
  · rw [hfront] at hsplit
    exact ⟨more, hfront, (List.cons.inj hsplit).2.symm⟩

/-- The outline of a list that starts with a block. -/
theorem ofStatements_front {t : Tree} {ts more : List Tree} {returns : Bool}
    (hfront : front (t :: ts) = t :: more) (hrun : IsRun t more (behind (t :: ts)) returns) :
    ∃ count, ofStatements none (t :: ts) =
      .run ⟨extent t (more.getLastD t), count, returns⟩ (ofStatements none (behind (t :: ts))) := by
  obtain ⟨count, hcount⟩ := ofStatements_run hrun none
  rw [← List.cons_append, ← hfront, front_append_behind] at hcount
  exact ⟨count, hcount⟩

/-! ## Falling through -/

/-- Whether control can go on after a construct. -/
def completes (t : Tree) : Bool := (ofStatement? t).any (·.completes)

theorem completes_of_opens {t : Tree} {c : Outline .construct} (hopens : Opens t c) :
    t.completes = c.completes := by
  rw [completes, ofStatement?_eq_some_iff.mpr hopens, Option.any_some]

/-- Control goes on after a run and the rest if the run does not leave the function and control
goes on after the rest. -/
theorem completes_run {first : Tree} {more rest : List Tree} {returns : Bool}
    (hrun : IsRun first more rest returns) :
    (ofStatements none (first :: (more ++ rest))).completes =
      (!returns && (ofStatements none rest).completes) := by
  obtain ⟨count, hcount⟩ := ofStatements_run hrun none
  rw [hcount]
  rfl

theorem completes_isRun {first : Tree} {more rest : List Tree} {returns : Bool}
    (hrun : IsRun first more rest returns) :
    (ofStatements none (first :: more)).completes = !returns := by
  have halone : IsRun first more [] returns := { hrun with maximal := fun _ => nofun }
  have hcompletes := completes_run halone
  rw [List.append_nil, ofStatements_nil] at hcompletes
  exact hcompletes.trans (Bool.and_true _)

/-- Control goes on after a construct and the rest if it does after both. -/
theorem completes_construct {t : Tree} (ht : t.isStraight = false) (ts : List Tree) :
    (ofStatements none (t :: ts)).completes =
      (t.completes && (ofStatements none ts).completes) := by
  obtain ⟨c, hc⟩ := isStraight_eq_false_iff.mp ht
  rw [ofStatements_cons_construct hc, completes, hc]
  rfl

theorem completes_singleton {t : Tree} {c : Outline .construct} (hopens : Opens t c) :
    (ofStatements none [t]).completes = c.completes := by
  rw [ofStatements_cons_construct (ofStatement?_eq_some_iff.mpr hopens), ofStatements_nil]
  exact Bool.and_true _

theorem completes_straight {t : Tree} (ht : t.isStraight = true) (ts : List Tree) :
    (ofStatements none (t :: ts)).completes =
      (!t.head.exits && (ofStatements none ts).completes) := by
  rcases opens_or_isRun t ts with hopens | ⟨more, rest, returns, rfl, hrun⟩
  · rw [ht] at hopens
    cases hopens
  · rw [completes_run hrun]
    cases more with
    | nil => rw [← hrun.last]; rfl
    | cons u more =>
        rw [hrun.inner t (by simp), List.cons_append, completes_run hrun.tail]
        rfl

/-- Whether control can go on after a list is told statement by statement, though statements are
outlined in runs. -/
theorem completes_cons (t : Tree) (ts : List Tree) :
    (ofStatements none (t :: ts)).completes =
      ((ofStatements none [t]).completes && (ofStatements none ts).completes) := by
  have hnil : (ofStatements none []).completes = true := by
    rw [ofStatements_nil]
    rfl
  cases ht : t.isStraight with
  | false => rw [completes_construct ht, completes_construct ht, hnil, Bool.and_true]
  | true => rw [completes_straight ht, completes_straight ht, hnil, Bool.and_true]

/-- Control goes on after two lists if it does after each of them. -/
theorem completes_append (us vs : List Tree) :
    (ofStatements none (us ++ vs)).completes =
      ((ofStatements none us).completes && (ofStatements none vs).completes) := by
  induction us with
  | nil => rw [ofStatements_nil]; rfl
  | cons u us ih => rw [List.cons_append, completes_cons, ih, completes_cons u us, Bool.and_assoc]

theorem completes_cons_of_opens {t : Tree} {ts : List Tree} {c : Outline .construct}
    (hopens : Opens t c) (hc : c.completes = true)
    (hrest : (ofStatements none ts).completes = true) :
    (ofStatements none (t :: ts)).completes = true := by
  rw [ofStatements_cons_construct (ofStatement?_eq_some_iff.mpr hopens)]
  exact Bool.and_eq_true_iff.mpr ⟨hc, hrest⟩

/-- Control goes on after cases if it does after the statements of one of them. -/
theorem completes_ofCases {cs : List Tree} : (ofCases cs).completes = true ↔
    ∃ c ∈ cs, (ofStatements none c.statements).completes = true := by
  induction cs with
  | nil =>
      rw [ofCases]
      simp [Outline.completes]
  | cons c cs ih =>
      rw [ofCases_cons, Outline.completes, Bool.or_eq_true, ih]
      simp

theorem exists_loop_caption {t : Tree}
    (hkind : t.kind = .whileLoop ∨ t.kind = .doLoop ∨ t.kind = .forLoop) :
    ∃ style : Loop, Caption.ofKind? t.kind = some style.caption := by
  rcases hkind with hkind | hkind | hkind
  · exact ⟨.pretest, by rw [hkind]; rfl⟩
  · exact ⟨.posttest, by rw [hkind]; rfl⟩
  · exact ⟨.counting, by rw [hkind]; rfl⟩

/-- Control goes on after the outline of statements that it falls through. -/
theorem FallsThrough.completes {ts : List Tree} (hts : FallsThrough ts) :
    (ofStatements none ts).completes = true := by
  induction hts with
  | nil =>
      rw [ofStatements_nil]
      rfl
  | straight hstraight hstays _ ih => simp [completes_straight hstraight, hstays, ih]
  | block hkind _ _ ihInner ihRest => exact completes_cons_of_opens (.block hkind) ihInner ihRest
  | consequent hkind _ _ ihYes ihRest =>
      exact completes_cons_of_opens (.branch hkind) (by simp [Outline.completes, ihYes]) ihRest
  | alternate hkind _ _ ihNo ihRest =>
      exact completes_cons_of_opens (.branch hkind) (by simp [Outline.completes, ihNo]) ihRest
  | loop hkind _ ihRest =>
      obtain ⟨style, hcaption⟩ := exists_loop_caption hkind
      exact completes_cons_of_opens (.loop hcaption) rfl ihRest
  | choice hchoice _ ihRest => exact completes_cons_of_opens (.choice hchoice) rfl ihRest
  | noCase hkind htested _ ihRest =>
      refine completes_cons_of_opens (.switch hkind) ?_ ihRest
      exact Bool.or_eq_true_iff.mpr (.inl (allTested_ofCases.mpr htested))
  | case hkind hc _ _ ihCase ihRest =>
      refine completes_cons_of_opens (.switch hkind) ?_ ihRest
      exact Bool.or_eq_true_iff.mpr (.inr (completes_ofCases.mpr ⟨_, hc, ihCase⟩))
  | guarded hkind _ _ _ ihBody ihFinal ihRest =>
      refine completes_cons_of_opens (.guarded hkind) ?_ ihRest
      simp [Outline.completes, ofBody_eq, ihBody, ihFinal]
  | caught hkind hhandler _ _ _ ihCaught ihFinal ihRest =>
      refine completes_cons_of_opens (.guarded hkind) ?_ ihRest
      simp [Outline.completes, ofBody_eq, hhandler, ofHandler_some, ihCaught, ihFinal]

/-- A run that does not leave the function is fallen through, statement by statement. -/
theorem FallsThrough.run {first : Tree} {more rest : List Tree}
    (hrun : IsRun first more rest false) (hrest : FallsThrough rest) :
    FallsThrough (first :: (more ++ rest)) := by
  induction more generalizing first with
  | nil => exact .straight (hrun.straight first (by simp)) hrun.last hrest
  | cons u more ih =>
      exact .straight (hrun.straight first (by simp)) (hrun.inner first (by simp)) (ih hrun.tail)

/-- A construct is fallen through if its parts are as soon as control can go on after them. -/
theorem FallsThrough.construct {t : Tree} {ts : List Tree} (ht : t.isStraight = false)
    (hcompletes : t.completes = true)
    (hparts : ∀ us ∈ t.parts, (ofStatements none us).completes = true → FallsThrough us)
    (hrest : FallsThrough ts) : FallsThrough (t :: ts) := by
  obtain ⟨c, hc⟩ := isStraight_eq_false_iff.mp ht
  have hopens := ofStatement?_eq_some_iff.mp hc
  rw [completes_of_opens hopens] at hcompletes
  unfold parts at hparts
  cases hopens with
  | block hkind =>
      rw [hkind] at hparts
      exact .block hkind (hparts _ (by simp) hcompletes) hrest
  | branch hkind =>
      rw [hkind] at hparts
      rcases Bool.or_eq_true_iff.mp hcompletes with hyes | hno
      · exact .consequent hkind (hparts _ (by simp) hyes) hrest
      · exact .alternate hkind (hparts _ (by simp) hno) hrest
  | loop hcaption =>
      rcases kind_of_loop_caption hcaption with ⟨hkind, _⟩ | ⟨hkind, _⟩ | ⟨hkind, _⟩ <;>
        exact .loop (by simp [hkind]) hrest
  | choice hchoice => exact .choice hchoice hrest
  | switch hkind =>
      rw [hkind] at hparts
      rcases Bool.or_eq_true_iff.mp hcompletes with htested | hcase
      · exact .noCase hkind (allTested_ofCases.mp htested) hrest
      · obtain ⟨c, hc, hstatements⟩ := completes_ofCases.mp hcase
        exact .case hkind hc (hparts _ (List.mem_map_of_mem hc) hstatements) hrest
  | guarded hkind =>
      rw [hkind] at hparts
      simp only [Outline.completes, ofBody_eq, Bool.and_eq_true, Bool.or_eq_true] at hcompletes
      obtain ⟨hthrough, hfinal⟩ := hcompletes
      have hlast := hparts _ (by simp) hfinal
      rcases hthrough with hbody | hhandler
      · exact .guarded hkind (hparts _ (by simp) hbody) hlast hrest
      · cases hsome : t.handler with
        | none =>
            rw [hsome, ofHandler] at hhandler
            cases hhandler
        | some h =>
            rw [hsome, ofHandler_some] at hhandler
            exact .caught hkind hsome (hparts _ (by simp [hsome]) hhandler) hlast hrest

/-! ## Going through a list -/

/-- Where the going through a list of statements stands: the address of the list, the statements
that were gone through, and those that are ahead. -/
structure Remainder where
  address : Address
  before : List Tree
  ahead : List Tree

namespace Remainder

def whole (a : Address) (ts : List Tree) : Remainder := ⟨a, [], ts⟩

/-- Into each part of the construct ahead. -/
def inner (r : Remainder) : List Remainder :=
  match r.ahead with
  | [] => []
  | t :: _ => t.parts.zipIdx.map fun (us, k) => whole (r.address ++ [(r.before.length, k)]) us

/-- Past the block or construct ahead. -/
def past (r : Remainder) : Remainder :=
  ⟨r.address, r.before ++ front r.ahead, behind r.ahead⟩

def next (r : Remainder) : List Remainder :=
  match r.ahead with
  | [] => []
  | _ :: _ => r.inner ++ if (ofStatements none (front r.ahead)).completes then [r.past] else []

-- A guarded block has three parts, and what is past it is a fourth list: each of them weighs one
-- even if it is empty.
def weight (ts : List Tree) : Nat := 1 + 4 * total Tree.size ts

theorem total_size_statements_lt (t : Tree) : total Tree.size t.statements < t.size := by
  obtain ⟨h, c, q, a, b, hd, f, v, ss, cs, os⟩ := t
  simp only [statements, Tree.size, sizeList_eq]
  omega

theorem total_size_asStatements_le (o : Option Tree) :
    total Tree.size (asStatements o) ≤ sizeOption o := by
  cases o with
  | none => exact Nat.le_refl _
  | some t =>
      rw [asStatements, sizeOption]
      have hlist := total_size_statements_lt t
      split
      · omega
      · simp

theorem sizeOption_bind_body_le (o : Option Tree) :
    sizeOption (o.bind (·.body)) ≤ sizeOption o := by
  cases o with
  | none => exact Nat.le_refl _
  | some t =>
      obtain ⟨h, c, q, a, b, hd, f, v, ss, cs, os⟩ := t
      simp only [Option.bind_some, Tree.body, sizeOption, Tree.size]
      omega

theorem total_weight_cases_le (cs : List Tree) :
    total weight (cs.map (·.statements)) ≤ 4 * total Tree.size cs := by
  induction cs with
  | nil => exact Nat.le_refl _
  | cons c cs ih =>
      have hlist := total_size_statements_lt c
      simp only [List.map_cons, total, weight] at ih ⊢
      omega

/-- The parts of a statement weigh less than it, with one added for each list. -/
theorem total_weight_parts_lt (t : Tree) : total weight t.parts < 4 * t.size := by
  obtain ⟨h, c, q, a, b, hd, f, v, ss, cs, os⟩ := t
  have hyes := total_size_asStatements_le q
  have hno := total_size_asStatements_le a
  have hbody := total_size_asStatements_le b
  have hcaught := total_size_asStatements_le (hd.bind (·.body))
  have hhandler := sizeOption_bind_body_le hd
  have hfinal := total_size_asStatements_le f
  have hcases := total_weight_cases_le cs
  rw [parts, Tree.size]
  split <;>
    simp only [statements, consequent, alternate, body, handler, finalizer, cases, total, weight,
      sizeList_eq] at * <;>
    omega

/-- To go on from a list leaves less to go through, so that going through it ends. -/
theorem total_next_lt (r : Remainder) :
    total (fun r => weight r.ahead) r.next < weight r.ahead := by
  obtain ⟨a, before, ahead⟩ := r
  cases ahead with
  | nil => exact Nat.lt_add_of_pos_left (by decide)
  | cons t ts =>
      have hinner : total (fun r => weight r.ahead) (inner ⟨a, before, t :: ts⟩) =
          total weight t.parts := by
        rw [inner, total_map]
        refine (total_map weight Prod.fst t.parts.zipIdx).symm.trans ?_
        rw [List.zipIdx_map_fst]
      have hpast : total Tree.size (behind (t :: ts)) ≤ total Tree.size ts := by
        obtain ⟨more, _, hts⟩ := front_cons t ts
        conv_rhs => rw [hts]
        rw [total_append]
        omega
      have hparts := total_weight_parts_lt t
      rw [next, total_append, hinner]
      split
      · simp only [total, past, weight] at hpast hparts ⊢
        omega
      · simp only [total, weight] at hpast hparts ⊢
        omega

def descent : Descent Remainder where
  next := next
  size r := weight r.ahead
  shrinks := total_next_lt

variable {r : Remainder} {t : Tree} {ts us : List Tree} {k : Nat}

/-- From a construct ahead control may come into each of its parts. -/
theorem mem_next_of_part (hahead : r.ahead = t :: ts) (hpart : t.parts[k]? = some us) :
    whole (r.address ++ [(r.before.length, k)]) us ∈ r.next := by
  rw [next, inner, hahead]
  refine List.mem_append_left _ (List.mem_map.mpr ⟨(us, k), ?_, rfl⟩)
  exact List.mem_zipIdx_iff_getElem?.mpr hpart

/-- If control goes on after the front, it comes to what is behind. -/
theorem past_mem_next (hahead : r.ahead ≠ [])
    (hfront : (ofStatements none (front r.ahead)).completes = true) : r.past ∈ r.next := by
  unfold next
  split
  next hnil => exact absurd hnil hahead
  next =>
    rw [if_pos hfront]
    exact List.mem_append_right _ (List.mem_singleton.mpr rfl)

/-- What comes next is a part of the construct ahead, or it is past the front. -/
theorem cases_of_mem_next {r' : Remainder} (hr' : r' ∈ r.next) :
    (∃ t ts k us, r.ahead = t :: ts ∧ t.parts[k]? = some us ∧
      r' = whole (r.address ++ [(r.before.length, k)]) us) ∨
    r.ahead ≠ [] ∧ (ofStatements none (front r.ahead)).completes = true ∧ r' = r.past := by
  unfold next at hr'
  split at hr'
  next => cases hr'
  next t ts hahead =>
    rcases List.mem_append.mp hr' with hinner | hpast
    · rw [inner, hahead] at hinner
      obtain ⟨⟨us, k⟩, hmem, rfl⟩ := List.mem_map.mp hinner
      exact .inl ⟨t, ts, k, us, hahead, List.mem_zipIdx_iff_getElem?.mp hmem, rfl⟩
    · split at hpast
      next hfront => exact .inr ⟨by simp [hahead], hfront, by simpa using hpast⟩
      next => cases hpast

theorem next_of_nil (hahead : r.ahead = []) : r.next = [] := by
  rw [next, hahead]

/-- What is told of the lists that come next is told of the parts of the construct ahead and of
what is behind the front. -/
theorem flatMap_next {α : Type} (f : List Tree → List α) (hahead : r.ahead = t :: ts) :
    (r.next.flatMap fun r' => f r'.ahead) = t.parts.flatMap f ++
      if (ofStatements none (front r.ahead)).completes then f (behind r.ahead) else [] := by
  have hinner : (r.inner.flatMap fun r' => f r'.ahead) = t.parts.flatMap f := by
    rw [inner, hahead, List.flatMap_map]
    conv_rhs => rw [← List.zipIdx_map_fst 0 t.parts, List.flatMap_map]
    rfl
  unfold next
  split
  next hnil => cases hahead.symm.trans hnil
  next =>
    rw [List.flatMap_append, hinner]
    split <;> simp [past]

/-- The part of a list that is not past is fallen through as soon as its outline says so. -/
theorem fallsThrough_of_completes (r : Remainder)
    (hcompletes : (ofStatements none r.ahead).completes = true) : FallsThrough r.ahead := by
  -- On the going through, and not on the list: it comes to the parts of constructs as well.
  induction r using descent.induct with
  | hnext r ih =>
      cases hahead : r.ahead with
      | nil => exact .nil
      | cons t ts =>
          have hsplit := hcompletes
          rw [← front_append_behind r.ahead, completes_append, Bool.and_eq_true] at hsplit
          have hbehind : FallsThrough (behind r.ahead) :=
            ih r.past (past_mem_next (by simp [hahead]) hsplit.1) hsplit.2
          rcases front_cases t ts with ⟨ht, hfront⟩ | ⟨more, returns, hfront, hrun⟩
          · rw [hahead, completes_construct ht, Bool.and_eq_true] at hcompletes
            rw [hahead, behind, hfront] at hbehind
            refine .construct ht hcompletes.1 (fun us hus => ?_) hbehind
            obtain ⟨k, hk⟩ := List.mem_iff_getElem?.mp hus
            exact ih _ (mem_next_of_part hahead hk)
          · rw [hahead] at hbehind hcompletes
            rw [← front_append_behind (t :: ts), hfront, List.cons_append] at hcompletes ⊢
            rw [completes_run hrun, Bool.and_eq_true, Bool.not_eq_true'] at hcompletes
            obtain ⟨rfl, _⟩ := hcompletes
            exact .run hrun hbehind

end Remainder

/-- Statements are fallen through, by the rules, exactly if their outline completes. -/
theorem fallsThrough_iff {ts : List Tree} :
    FallsThrough ts ↔ (ofStatements none ts).completes = true :=
  ⟨FallsThrough.completes, (Remainder.whole [] ts).fallsThrough_of_completes⟩

/-- Two lists are fallen through if each of them is. -/
theorem fallsThrough_append {us vs : List Tree} :
    FallsThrough (us ++ vs) ↔ FallsThrough us ∧ FallsThrough vs := by
  rw [fallsThrough_iff, completes_append, Bool.and_eq_true, fallsThrough_iff, fallsThrough_iff]

/-! ## What is come to -/

namespace Remainder

variable {root us : List Tree} {r : Remainder} {a : Address} {i : Nat} {t : Tree}

/-- The going through a list that control comes to, at a place that it comes to. -/
structure Valid (root : List Tree) (r : Remainder) : Prop where
  reached : Reached root r.address (r.before ++ r.ahead)
  through : FallsThrough r.before
  /-- No block is broken off. -/
  apart : ∀ t ∈ r.before.getLast?, t.isStraight = true → ∀ u ∈ r.ahead.head?, u.isStraight = false

/-- A list that control comes to is gone through from its start. -/
theorem Valid.whole (hreached : Reached root a us) : Valid root (whole a us) where
  reached := hreached
  through := .nil
  apart := nofun

/-- To go on past the front of a list leads to a place that control comes to. -/
theorem Valid.past (hr : Valid root r) (hahead : r.ahead ≠ [])
    (hfront : (ofStatements none (front r.ahead)).completes = true) : Valid root r.past where
  reached := by
    have hlist : r.past.before ++ r.past.ahead = r.before ++ r.ahead := by
      rw [Remainder.past, List.append_assoc, front_append_behind]
    rw [hlist]
    exact hr.reached
  through := fallsThrough_append.mpr ⟨hr.through, fallsThrough_iff.mpr hfront⟩
  apart := by
    obtain ⟨t, ts, hcons⟩ := List.exists_cons_of_ne_nil hahead
    rw [Remainder.past, hcons]
    rw [hcons] at hfront
    intro v hv hstraight
    rcases front_cases t ts with ⟨ht, hsingle⟩ | ⟨more, returns, hmore, hrun⟩
    · rw [hsingle] at hv
      obtain rfl : t = v := by simpa using hv
      rw [ht] at hstraight
      cases hstraight
    · refine hrun.maximal ?_
      rw [hmore, completes_isRun hrun] at hfront
      simpa using hfront

/-- Each step leads from a place that control comes to, to another such place. -/
theorem Valid.next (hr : Valid root r) {r' : Remainder} (hr' : r' ∈ r.next) : Valid root r' := by
  rcases cases_of_mem_next hr' with ⟨t, ts, k, us, hahead, hpart, rfl⟩ | ⟨hahead, hfront, rfl⟩
  · refine .whole (hr.reached.inside ?_ ?_ hpart)
    · rw [hahead, List.getElem?_append_right (Nat.le_refl _), Nat.sub_self]
      rfl
    · rw [List.take_left]
      exact hr.through
  · exact hr.past hahead hfront

/-- All places on the way are places that control comes to. -/
theorem valid_of_mem_walk (hr : r ∈ descent.walk (whole [] root)) : Valid root r :=
  descent.forall_mem_walk (P := Valid root) (.whole .root)
    (fun _ _ hb _ hc => hb.next hc) r hr

/-- What control falls through to within a list is gone through as part of a front. -/
theorem exists_front (r : Remainder) (hi : i < r.ahead.length)
    (hthrough : FallsThrough (r.ahead.take i)) :
    ∃ r' ∈ descent.walk r, r'.address = r.address ∧ r'.before ++ r'.ahead = r.before ++ r.ahead ∧
      r'.before.length ≤ r.before.length + i ∧
      r.before.length + i < r'.before.length + (front r'.ahead).length := by
  induction r using descent.induct generalizing i with
  | hnext r ih =>
      by_cases hfront : i < (front r.ahead).length
      · exact ⟨r, descent.self_mem_walk r, rfl, rfl, by omega, by omega⟩
      · -- It is behind the front, which is therefore fallen through.
        have hsplit := front_append_behind r.ahead
        have hlength := congrArg List.length hsplit
        rw [List.length_append] at hlength
        have htake : r.ahead.take i =
            front r.ahead ++ (behind r.ahead).take (i - (front r.ahead).length) := by
          conv_lhs => rw [← hsplit, List.take_append, List.take_of_length_le (by omega)]
        rw [htake, fallsThrough_append] at hthrough
        have hnext : r.past ∈ r.next :=
          past_mem_next (List.ne_nil_of_length_pos (by omega)) hthrough.1.completes
        obtain ⟨r', hr', haddress, hlist, hle, hlt⟩ :=
          ih r.past hnext (i := i - (front r.ahead).length) (by simp only [past]; omega) hthrough.2
        have hbefore : r.past.before.length = r.before.length + (front r.ahead).length :=
          List.length_append
        refine ⟨r', descent.mem_walk_of_mem_next hnext hr', haddress, ?_, by omega, by omega⟩
        rw [hlist, past, List.append_assoc, hsplit]

/-- A straight statement has no lists below it. -/
theorem parts_eq_nil (ht : t.isStraight = true) : t.parts = [] := by
  unfold isStraight at ht
  unfold parts
  split at ht <;> simp_all

theorem getElem?_front {j : Nat} (hle : r.before.length ≤ j)
    (hlt : j < r.before.length + (front r.ahead).length) :
    (front r.ahead)[j - r.before.length]? = (r.before ++ r.ahead)[j]? := by
  conv_rhs => rw [← front_append_behind r.ahead]
  rw [List.getElem?_append_right hle, List.getElem?_append_left (by omega)]

/-- A statement among those ahead that control falls through to, within the front that it is gone
through with. -/
theorem exists_mem_front (ht : r.ahead[i]? = some t) (hthrough : FallsThrough (r.ahead.take i)) :
    ∃ r' ∈ descent.walk r, r'.address = r.address ∧ r'.before ++ r'.ahead = r.before ++ r.ahead ∧
      r'.before.length ≤ r.before.length + i ∧
      (front r'.ahead)[r.before.length + i - r'.before.length]? = some t := by
  obtain ⟨hi, _⟩ := List.getElem?_eq_some_iff.mp ht
  obtain ⟨r', hr', haddress, hlist, hle, hlt⟩ := exists_front r hi hthrough
  refine ⟨r', hr', haddress, hlist, hle, ?_⟩
  rw [getElem?_front hle hlt, hlist, List.getElem?_append_right (by omega), Nat.add_sub_cancel_left,
    ht]

/-- The front that a construct is gone through with is the construct alone. -/
theorem front_eq_singleton {ts : List Tree} (ht : t ∈ front ts) (hopens : t.isStraight = false) :
    ∃ more, ts = t :: more ∧ front ts = [t] := by
  cases ts with
  | nil => cases ht
  | cons u us =>
      rcases front_cases u us with ⟨_, hfront⟩ | ⟨more, returns, hfront, hrun⟩
      · rw [hfront, List.mem_singleton] at ht
        subst ht
        exact ⟨us, rfl, hfront⟩
      · rw [hfront] at ht
        rw [hrun.straight t ht] at hopens
        cases hopens

/-- At a construct that control falls through to, the going through stops. -/
theorem exists_ahead (ht : r.ahead[i]? = some t) (hopens : t.isStraight = false)
    (hthrough : FallsThrough (r.ahead.take i)) :
    ∃ r' ∈ descent.walk r, r'.address = r.address ∧ r'.before.length = r.before.length + i ∧
      ∃ more, r'.ahead = t :: more := by
  obtain ⟨r', hr', haddress, _, hle, hfront⟩ := exists_mem_front ht hthrough
  obtain ⟨more, hahead, hsingle⟩ := front_eq_singleton (List.mem_of_getElem? hfront) hopens
  rw [hsingle] at hfront
  obtain ⟨hlt, _⟩ := List.getElem?_eq_some_iff.mp hfront
  rw [List.length_singleton] at hlt
  exact ⟨r', hr', haddress, by omega, more, hahead⟩

/-- Every list that control comes to is gone through. -/
theorem whole_mem_walk (hreached : Reached root a us) :
    whole a us ∈ descent.walk (whole [] root) := by
  induction hreached with
  | root => exact descent.self_mem_walk _
  | @inside a us i t k vs _ ht hbefore hpart ih =>
      -- Only a construct has parts, and at a construct the going through of its list stops.
      have hopens : t.isStraight = false := by
        cases hstraight : t.isStraight with
        | false => rfl
        | true => simp [parts_eq_nil hstraight] at hpart
      obtain ⟨r, hr, haddress, hlength, more, hahead⟩ :=
        exists_ahead (r := whole a us) ht hopens hbefore
      have hnext : whole (a ++ [(i, k)]) vs ∈ r.next := by
        simpa [haddress, hlength, whole] using mem_next_of_part hahead hpart
      apply descent.walk_subset ih
      apply descent.walk_subset hr
      exact descent.mem_walk_of_mem_next hnext (descent.self_mem_walk _)

end Remainder

/-! ## Where nothing leaves the function -/

/-- The lists below a statement hold the statements right below it, in order. -/
theorem flatten_parts (t : Tree) : t.parts.flatten = t.substatements := by
  unfold parts substatements
  cases t.kind <;> simp [List.flatMap_def]

/-- The statements of a list that control comes to are statements of the function. -/
theorem Reached.statementOf {root us : List Tree} {a : Address} (hus : Reached root a us) {s : Tree}
    (hs : StatementOf us s) : StatementOf root s := by
  induction hus with
  | root => exact hs
  | inside _ ht _ hpart ih =>
      refine ih (.inside (List.mem_of_getElem? ht) (hs.mono fun u hu => ?_))
      rw [← flatten_parts]
      exact List.mem_flatten_of_mem (List.mem_of_getElem? hpart) hu

/-- A construct is fallen through if each of its parts is. -/
theorem FallsThrough.of_parts {t : Tree} (ht : t.isStraight = false)
    (hparts : ∀ us ∈ t.parts, FallsThrough us) : FallsThrough [t] := by
  obtain ⟨c, hc⟩ := isStraight_eq_false_iff.mp ht
  unfold parts at hparts
  cases ofStatement?_eq_some_iff.mp hc with
  | block hkind =>
      rw [hkind] at hparts
      exact .block hkind (hparts _ (by simp)) .nil
  | branch hkind =>
      rw [hkind] at hparts
      exact .consequent hkind (hparts _ (by simp)) .nil
  | loop hcaption =>
      rcases kind_of_loop_caption hcaption with ⟨hkind, _⟩ | ⟨hkind, _⟩ | ⟨hkind, _⟩ <;>
        exact .loop (by simp [hkind]) .nil
  | choice hchoice => exact .choice hchoice .nil
  | switch hkind =>
      rw [hkind] at hparts
      by_cases htested : ∀ c ∈ t.cases, c.condition.isSome
      · exact .noCase hkind htested .nil
      · obtain ⟨c, hc, _⟩ : ∃ c ∈ t.cases, ¬ c.condition.isSome := by simpa using htested
        exact .case hkind hc (hparts _ (List.mem_map_of_mem hc)) .nil
  | guarded hkind =>
      rw [hkind] at hparts
      exact .guarded hkind (hparts _ (by simp)) (hparts _ (by simp)) .nil

/-- Control falls through statements none of which leaves the function. -/
theorem Remainder.fallsThrough_of_stays (r : Remainder)
    (hstays : ∀ s, StatementOf r.ahead s → s.head.exits = false) : FallsThrough r.ahead := by
  induction r using descent.induct with
  | hnext r ih =>
      cases hahead : r.ahead with
      | nil => exact .nil
      | cons t ts =>
          have hfront : FallsThrough (front r.ahead) := by
            rw [hahead] at hstays ⊢
            rcases front_cases t ts with ⟨ht, hfront⟩ | ⟨more, returns, hfront, hrun⟩
            · rw [hfront]
              refine .of_parts ht fun us hus => ?_
              obtain ⟨k, hk⟩ := List.mem_iff_getElem?.mp hus
              refine ih _ (mem_next_of_part hahead hk) fun s hs => hstays s ?_
              refine .inside List.mem_cons_self (hs.mono fun u hu => ?_)
              rw [← flatten_parts]
              exact List.mem_flatten_of_mem hus hu
            · have hlast : more.getLastD t ∈ front (t :: ts) := by
                rw [hfront]
                exact List.getLastD_mem_cons
              have hexits := hstays _ (.listed ((front_isPrefix _).subset hlast))
              rw [fallsThrough_iff, hfront, completes_isRun hrun, ← hrun.last, hexits]
              rfl
          have hbehind : FallsThrough (behind r.ahead) := by
            refine ih r.past (past_mem_next (by simp [hahead]) hfront.completes) fun s hs => ?_
            exact hstays s (hs.mono (List.drop_subset _ _))
          rw [← hahead, ← front_append_behind r.ahead]
          exact fallsThrough_append.mpr ⟨hfront, hbehind⟩

end Tree

end Cyclomatic
