import Mathlib.Data.Finset.Card
import QuantumLowering.Circuit.Proxy

namespace QuantumLowering

namespace ProxyCache

/-- There are lines, and they are in an allocation of this width. -/
def Fits (width : Nat) (lines : List Line) : Prop := lines ≠ [] ∧ ∀ line ∈ lines, line < width

instance (width : Nat) : DecidablePred (Fits width) := fun _ => inferInstanceAs (Decidable (_ ∧ _))

/-- The lists of lines that there is a proxy for after the requests, in the order of their first
requests. -/
def served (width : Nat) (requests : List (List Line)) : List (List Line) :=
  (requests.filter fun lines => Fits width lines).eraseDups

def holding (width : Nat) (sets : List (List Line)) : ProxyCache :=
  ⟨width, sets.mapIdx fun i lines => ⟨min i maxProxyId, lines⟩⟩

section Request

variable {width : Nat} {sets : List (List Line)} {lines : List Line}

@[simp]
theorem size_holding : (holding width sets).size = sets.length := by
  simp [holding, size]

theorem find?_holding (lines : List Line) :
    (holding width sets).proxies.find? (fun proxy => proxy.lines == lines) =
      if lines ∈ sets then some ⟨min (sets.idxOf lines) maxProxyId, lines⟩ else none := by
  induction sets using List.reverseRecOn with
  | nil => simp [holding]
  | append_singleton sets last ih =>
    simp only [holding] at ih ⊢
    rw [List.mapIdx_concat, List.find?_append, ih]
    by_cases old : lines ∈ sets
    · simp [old, List.idxOf_append_of_mem old]
    · by_cases same : last = lines
      · subst same
        simp [old, List.idxOf_append_of_notMem old]
      · simp [old, same, Ne.symm same]

theorem fits_iff_find? : Fits width lines ↔
    lines.isEmpty = false ∧ (lines.find? fun line => width ≤ line) = none := by
  rw [Fits, List.find?_eq_none, List.isEmpty_eq_false_iff]
  simp

theorem ask_of_fits (fits : Fits width lines) : (holding width sets).ask lines =
    (.ok ⟨min ((sets ++ [lines]).idxOf lines) maxProxyId, lines⟩,
      holding width (if lines ∈ sets then sets else sets ++ [lines])) := by
  obtain ⟨present, inside⟩ := fits_iff_find?.1 fits
  have widths : (holding width sets).width = width := rfl
  unfold ask
  rw [present, widths, inside, find?_holding]
  by_cases old : lines ∈ sets
  · simp [old, List.idxOf_append_of_mem old]
  · have extended : holding width (sets ++ [lines]) =
        ⟨width, (holding width sets).proxies ++ [⟨min sets.length maxProxyId, lines⟩]⟩ := by
      simp [holding, List.mapIdx_concat]
    simp [old, List.idxOf_append_of_notMem old, extended]

theorem ask_of_not_fits {c : ProxyCache} (misfit : ¬ Fits c.width lines) :
    ∃ e, c.ask lines = (.error e, c) := by
  unfold ask
  by_cases none : lines.isEmpty
  · rw [if_pos none]
    exact ⟨_, rfl⟩
  · rw [if_neg none]
    cases outside : lines.find? fun line => c.width ≤ line with
    | none => exact absurd (fits_iff_find?.2 ⟨by simpa using none, outside⟩) misfit
    | some line => exact ⟨_, rfl⟩

end Request

def askAll (c : ProxyCache) :
    List (List Line) → List (Except CircuitError MeasurementProxy) × ProxyCache
  | [] => ([], c)
  | lines :: later =>
    ((c.ask lines).1 :: ((c.ask lines).2.askAll later).1, ((c.ask lines).2.askAll later).2)

def answers (width : Nat) (requests : List (List Line)) :
    List (Except CircuitError MeasurementProxy) := ((new width).askAll requests).1

def after (width : Nat) (requests : List (List Line)) : ProxyCache :=
  ((new width).askAll requests).2

variable {width : Nat} {requests : List (List Line)} {lines : List Line}

theorem askAll_concat (c : ProxyCache) (requests : List (List Line)) (lines : List Line) :
    c.askAll (requests ++ [lines]) =
      ((c.askAll requests).1 ++ [((c.askAll requests).2.ask lines).1],
        ((c.askAll requests).2.ask lines).2) := by
  induction requests generalizing c with
  | nil => rfl
  | cons first requests ih => simp only [List.cons_append, askAll, ih]

theorem getElem?_askAll (c : ProxyCache) (requests : List (List Line)) (i : Nat) :
    (c.askAll requests).1[i]? =
      requests[i]?.map fun lines => ((c.askAll (requests.take i)).2.ask lines).1 := by
  induction requests generalizing c i with
  | nil => rfl
  | cons first requests ih =>
    cases i with
    | zero => rfl
    | succ i => exact ih (c.ask first).2 i

theorem served_concat (width : Nat) (requests : List (List Line)) (lines : List Line) :
    served width (requests ++ [lines]) =
      if Fits width lines then
        if lines ∈ served width requests then served width requests
        else served width requests ++ [lines]
      else served width requests := by
  unfold served
  rw [List.filter_append, List.eraseDups_append]
  by_cases fits : Fits width lines
  · by_cases old : lines ∈ requests
    · simp [fits, old, List.removeAll]
    · simp [fits, old, List.removeAll, List.eraseDups_cons]
  · simp [fits, List.removeAll]

theorem after_eq (width : Nat) (requests : List (List Line)) :
    after width requests = holding width (served width requests) := by
  induction requests using List.reverseRecOn with
  | nil => rfl
  | append_singleton requests lines ih =>
    rw [after] at ih ⊢
    rw [askAll_concat, ih, served_concat]
    by_cases fits : Fits width lines
    · rw [ask_of_fits fits, if_pos fits]
    · obtain ⟨e, refused⟩ := ask_of_not_fits (c := holding width (served width requests)) fits
      rw [refused, if_neg fits]

theorem mem_served : lines ∈ served width requests ↔ lines ∈ requests ∧ Fits width lines := by
  simp [served]

theorem nodup_served (width : Nat) (requests : List (List Line)) :
    (served width requests).Nodup := by
  induction requests using List.reverseRecOn with
  | nil => exact .nil
  | append_singleton requests lines ih =>
    rw [served_concat]
    split
    · split
      · exact ih
      · rename_i new
        exact List.concat_eq_append ▸ ih.concat new
    · exact ih

/-- How many different lists there are among the requests that fit. -/
def distinct (width : Nat) (requests : List (List Line)) : Nat :=
  (requests.filter fun lines => Fits width lines).toFinset.card

theorem length_served (width : Nat) (requests : List (List Line)) :
    (served width requests).length = distinct width requests := by
  rw [distinct, ← List.toFinset_card_of_nodup (nodup_served width requests)]
  congr 1
  ext lines
  simp [served]

theorem idxOf_served_append (earlier later : List (List Line))
    (member : lines ∈ served width earlier) :
    (served width (earlier ++ later)).idxOf lines = (served width earlier).idxOf lines := by
  have extended : served width earlier <+: served width (earlier ++ later) := by
    unfold served
    rw [List.filter_append, List.eraseDups_append]
    exact List.prefix_append _ _
  obtain ⟨more, whole⟩ := extended
  rw [← whole, List.idxOf_append_of_mem member]

theorem idxOf_served (member : lines ∈ requests) (fits : Fits width lines) :
    (served width requests).idxOf lines =
      distinct width (requests.takeWhile fun other => other ≠ lines) := by
  obtain ⟨earlier, later, split, new⟩ := List.eq_append_cons_of_mem member
  have before : requests.takeWhile (fun other => other ≠ lines) = earlier := by
    have others : ∀ other ∈ earlier, decide (other ≠ lines) = true := by
      intro other listed
      have differs : other ≠ lines := fun same => new (same ▸ listed)
      simpa using differs
    rw [split, List.takeWhile_append_of_pos others]
    simp
  have absent : lines ∉ served width earlier := fun listed => new (mem_served.1 listed).1
  have first : served width (earlier ++ [lines]) = served width earlier ++ [lines] := by
    rw [served_concat, if_pos fits, if_neg absent]
  rw [before, split, List.append_cons, idxOf_served_append _ _ (by simp [first]), first,
    List.idxOf_append_of_notMem absent, ← length_served]
  simp

theorem ask_after (earlier : List (List Line)) (fits : Fits width lines) :
    (after width earlier).ask lines =
      (.ok ⟨min ((served width (earlier ++ [lines])).idxOf lines) maxProxyId, lines⟩,
        after width (earlier ++ [lines])) := by
  rw [after_eq, after_eq, ask_of_fits fits, served_concat, if_pos fits]
  by_cases old : lines ∈ served width earlier
  · rw [if_pos old, List.idxOf_append_of_mem old]
  · rw [if_neg old]

theorem length_answers (width : Nat) (requests : List (List Line)) :
    (answers width requests).length = requests.length := by
  have all : ∀ c : ProxyCache, (c.askAll requests).1.length = requests.length := by
    induction requests with
    | nil => exact fun _ => rfl
    | cons first requests ih => exact fun c => congrArg (· + 1) (ih (c.ask first).2)
  exact all (new width)

theorem getElem?_answers {i : Nat} (asked : requests[i]? = some lines) :
    (answers width requests)[i]? = some ((after width (requests.take i)).ask lines).1 := by
  rw [answers, getElem?_askAll, asked]
  rfl

theorem take_of_asked {i : Nat} (asked : requests[i]? = some lines) :
    requests.take (i + 1) = requests.take i ++ [lines] := by
  rw [List.take_add_one, asked]
  rfl

theorem getElem?_answers_of_fits {i : Nat} (asked : requests[i]? = some lines)
    (fits : Fits width lines) : (answers width requests)[i]? =
      some (.ok ⟨min ((served width requests).idxOf lines) maxProxyId, lines⟩) := by
  have now : lines ∈ served width (requests.take (i + 1)) := by
    simp [mem_served, fits, take_of_asked asked]
  have number := idxOf_served_append _ (requests.drop (i + 1)) now
  rw [List.take_append_drop] at number
  rw [getElem?_answers asked, ask_after _ fits, number, take_of_asked asked]

theorem getElem?_answers_of_not_fits {i : Nat} (asked : requests[i]? = some lines)
    (misfit : ¬ Fits width lines) :
    (∃ e, (answers width requests)[i]? = some (.error e)) ∧
      after width (requests.take (i + 1)) = after width (requests.take i) := by
  have same : (after width (requests.take i)).width = width := by
    rw [after_eq]
    rfl
  obtain ⟨e, refused⟩ := ask_of_not_fits (same.symm ▸ misfit)
  constructor
  · rw [getElem?_answers asked, refused]
    exact ⟨e, rfl⟩
  · calc after width (requests.take (i + 1))
        = ((after width (requests.take i)).ask lines).2 := by
          rw [take_of_asked asked, after, askAll_concat, after]
      _ = after width (requests.take i) := by rw [refused]

/-- One of the requests was for these lines, and was answered with this proxy. -/
def Answered (width : Nat) (requests : List (List Line)) (lines : List Line)
    (proxy : MeasurementProxy) : Prop :=
  ∃ i : Nat, requests[i]? = some lines ∧ (answers width requests)[i]? = some (.ok proxy)

theorem answered_iff {proxy : MeasurementProxy} : Answered width requests lines proxy ↔
    lines ∈ served width requests ∧
      proxy = ⟨min ((served width requests).idxOf lines) maxProxyId, lines⟩ := by
  constructor
  · intro ⟨i, asked, answered⟩
    by_cases fits : Fits width lines
    · rw [getElem?_answers_of_fits asked fits] at answered
      cases answered
      exact ⟨mem_served.2 ⟨List.mem_of_getElem? asked, fits⟩, rfl⟩
    · obtain ⟨⟨e, refused⟩, -⟩ := getElem?_answers_of_not_fits asked fits
      rw [refused] at answered
      cases answered
  · intro ⟨member, same⟩
    obtain ⟨listed, fits⟩ := mem_served.1 member
    obtain ⟨i, asked⟩ := List.getElem?_of_mem listed
    exact ⟨i, asked, same ▸ getElem?_answers_of_fits asked fits⟩

theorem refused_iff {i : Nat} (asked : requests[i]? = some lines) :
    (∃ e, (answers width requests)[i]? = some (.error e)) ↔ ¬ Fits width lines := by
  constructor
  · intro ⟨e, refused⟩ fits
    rw [getElem?_answers_of_fits asked fits] at refused
    cases refused
  · exact fun misfit => (getElem?_answers_of_not_fits asked misfit).1

theorem not_fits_iff : ¬ Fits width lines ↔ lines = [] ∨ ∃ line ∈ lines, width ≤ line := by
  simp [Fits, Classical.or_iff_not_imp_left]

theorem size_after (width : Nat) (requests : List (List Line)) :
    (after width requests).size = distinct width requests := by
  rw [after_eq, size_holding, length_served]

section Enough

variable {proxy : MeasurementProxy} (few : distinct width requests ≤ UInt32.size)
include few

theorem answered_iff_of_few : Answered width requests lines proxy ↔
    lines ∈ served width requests ∧ proxy = ⟨(served width requests).idxOf lines, lines⟩ := by
  rw [answered_iff]
  apply and_congr_right
  intro member
  have bound := List.idxOf_lt_length_of_mem member
  rw [length_served] at bound
  have small : (served width requests).idxOf lines ≤ maxProxyId :=
    Nat.le_sub_one_of_lt (bound.trans_le few)
  rw [min_eq_left small]

theorem Answered.id_eq_iff {xs ys : List Line} {p q : MeasurementProxy}
    (first : Answered width requests xs p) (second : Answered width requests ys q) :
    p.id = q.id ↔ xs = ys := by
  obtain ⟨member, same⟩ := (answered_iff_of_few few).1 first
  obtain ⟨-, same'⟩ := (answered_iff_of_few few).1 second
  rw [same, same']
  exact List.idxOf_inj member

theorem lt_size_after_iff {n : Nat} : n < (after width requests).size ↔
    ∃ lines proxy, Answered width requests lines proxy ∧ proxy.id = n := by
  rw [size_after, ← length_served]
  constructor
  · intro inside
    have number := (nodup_served width requests).idxOf_getElem n inside
    exact ⟨_, _, (answered_iff_of_few few).2 ⟨List.getElem_mem inside, rfl⟩, number⟩
  · intro ⟨lines, proxy, asked, same⟩
    obtain ⟨member, rfl⟩ := (answered_iff_of_few few).1 asked
    rw [← same]
    exact List.idxOf_lt_length_of_mem member

end Enough

/-- Over any sequence of requests for at most as many different lists as there are numbers: every
request is answered, it fails exactly if it is for no lines or for one outside of the allocation, and
then the cache is as before. A proxy has the lines it was asked for, and its number is how many lists
were served before them. So proxies have the same number exactly if they are for the same lines, and
the numbers are those below the size of the cache. -/
theorem answers_numbered (width : Nat) (requests : List (List Line))
    (few : distinct width requests ≤ UInt32.size) :
    (answers width requests).length = requests.length ∧
    (∀ i lines, requests[i]? = some lines →
      ((∃ e, (answers width requests)[i]? = some (.error e)) ↔
        lines = [] ∨ ∃ line ∈ lines, width ≤ line) ∧
      ∀ e, (answers width requests)[i]? = some (.error e) →
        after width (requests.take (i + 1)) = after width (requests.take i)) ∧
    (∀ lines proxy, Answered width requests lines proxy → proxy.lines = lines ∧
      proxy.id = distinct width (requests.takeWhile fun other => other ≠ lines)) ∧
    (∀ xs ys p q, Answered width requests xs p → Answered width requests ys q →
      (p.id = q.id ↔ xs = ys)) ∧
    (after width requests).size = distinct width requests ∧
    ∀ n, n < (after width requests).size ↔
      ∃ lines proxy, Answered width requests lines proxy ∧ proxy.id = n := by
  refine ⟨length_answers width requests, ?failing, ?counted, ?apart, size_after width requests,
    fun _ => lt_size_after_iff few⟩
  case failing =>
    intro i lines asked
    constructor
    · rw [refused_iff asked, not_fits_iff]
    · intro e refused
      exact (getElem?_answers_of_not_fits asked ((refused_iff asked).1 ⟨e, refused⟩)).2
  case counted =>
    intro lines proxy asked
    obtain ⟨member, same⟩ := (answered_iff_of_few few).1 asked
    obtain ⟨listed, fits⟩ := mem_served.1 member
    rw [same]
    exact ⟨rfl, idxOf_served listed fits⟩
  case apart =>
    intro xs ys p q first second
    exact first.id_eq_iff few second

/-- Among requests that fail, the same lines get the same proxy, and the same lines in another order
a third one. -/
theorem answers_numbered_repeated :
    let requests := [[0, 1], [], [2], [0, 4], [0, 1], [1, 0]]
    distinct 4 requests ≤ UInt32.size ∧
      answers 4 requests = [.ok ⟨0, [0, 1]⟩, .error (.unsupported .measuringNothing), .ok ⟨1, [2]⟩,
        .error (.lineOutOfRange 4 4), .ok ⟨0, [0, 1]⟩, .ok ⟨2, [1, 0]⟩] ∧
      (after 4 requests).size = distinct 4 requests := by
  intro requests
  have few : distinct 4 requests ≤ UInt32.size := by decide
  exact ⟨few, by decide, (answers_numbered 4 requests few).2.2.2.2.1⟩

end ProxyCache

end QuantumLowering
