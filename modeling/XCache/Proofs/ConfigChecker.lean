import XCache.ConfigChecker

/-!
# What the pattern for paths accepts

The pattern lets a component begin with its slash, so it accepts absolute paths as they are
(`absolute_iff`), no relative one, and the empty string, where neither part comes at all.
-/

namespace XCache

namespace ConfigChecker

open ConfigParser Regex

variable {val : Str}

/-! ## Paths -/

/-- A slash, or nothing. -/
def MaybeSlash (w : Str) : Prop := w = [] ∨ w = [slash]

/-- An absolute or relative path: components with a slash between each two, one before them or not,
and one after them or not. -/
def LinuxPath (val : Str) : Prop :=
  val ≠ [] ∧ (∀ c ∈ val, isspace c = false)
    ∧ (val = [slash]
      ∨ ∃ (lead : Str) (comps : List Str) (trail : Str), MaybeSlash lead ∧ MaybeSlash trail
        ∧ comps ≠ []
        ∧ (∀ comp ∈ comps, comp ≠ [] ∧ slash ∉ comp)
        ∧ val = lead ++ [slash].intercalate comps ++ trail)

/-- A component starts with something else than a slash. -/
theorem intercalate_head {comps : List Str} (hne : comps ≠ [])
    (hcomps : ∀ comp ∈ comps, comp ≠ [] ∧ slash ∉ comp) :
    ∃ c w, c ≠ slash ∧ [slash].intercalate comps = c :: w := by
  obtain ⟨comp, comps, rfl⟩ := List.exists_cons_of_ne_nil hne
  obtain ⟨hcomp, hslash⟩ := hcomps comp List.mem_cons_self
  obtain ⟨c, comp, rfl⟩ := List.exists_cons_of_ne_nil hcomp
  have hc : c ≠ slash := fun heq => hslash (heq ▸ List.mem_cons_self)
  cases comps with
  | nil => exact ⟨c, comp, hc, List.intercalate_singleton⟩
  | cons comp' comps =>
    exact ⟨c, comp ++ [slash] ++ [slash].intercalate (comp' :: comps), hc,
      by rw [List.intercalate_cons_cons]; rfl⟩

/-! ## The pattern -/

theorem mem_chars {p : UInt8 → Bool} {c : UInt8} :
    c ∈ ((List.range 256).map UInt8.ofNat).filter p ↔ p c = true := by
  rw [List.mem_filter, and_iff_right]
  exact List.mem_map.2 ⟨c.toNat, List.mem_range.2 c.toNat_lt, UInt8.ofNat_toNat⟩

theorem mem_charClass {p : UInt8 → Bool} {w : Str} :
    w ∈ (atLeastOnce (charClass p)).matches' ↔ w ≠ [] ∧ ∀ c ∈ w, p c = true := by
  rw [charClass, mem_atLeastOnce_oneOf]
  simp only [mem_chars]

/-- A component, as the pattern has it. -/
def Component (comp : Str) : Prop := comp ≠ [] ∧ ∀ c ∈ comp, c ≠ slash ∧ isspace c = false

theorem mem_slashed {w : Str} :
    w ∈ (RegularExpression.char slash
        * atLeastOnce (charClass fun c => !(c = slash) && !isspace c)).matches'
      ↔ ∃ comp, Component comp ∧ w = slash :: comp := by
  rw [RegularExpression.matches'_mul, Language.mem_mul]
  constructor
  · rintro ⟨a, rfl, comp, hcomp, rfl⟩
    obtain ⟨hne, hall⟩ := mem_charClass.1 hcomp
    exact ⟨comp, ⟨hne, fun c hc => by simpa using hall c hc⟩, rfl⟩
  · rintro ⟨comp, ⟨hne, hall⟩, rfl⟩
    exact ⟨[slash], rfl, comp, mem_charClass.2 ⟨hne, fun c hc => by simpa using hall c hc⟩, rfl⟩

theorem flatten_slashed : ∀ {parts : List Str},
    (∀ part ∈ parts, ∃ comp, Component comp ∧ part = slash :: comp) →
      ∃ comps : List Str, (∀ comp ∈ comps, Component comp)
        ∧ parts.flatten = comps.flatMap fun comp => slash :: comp
  | [], _ => ⟨[], by simp, rfl⟩
  | part :: parts, h => by
    obtain ⟨⟨comp, hcomp, rfl⟩, hrest⟩ := List.forall_mem_cons.1 h
    obtain ⟨comps, hcomps, heq⟩ := flatten_slashed hrest
    exact ⟨comp :: comps, List.forall_mem_cons.2 ⟨hcomp, hcomps⟩, by
      rw [List.flatten_cons, heq, List.flatMap_cons]⟩

/-- Components with a slash before each, and one behind them or not. -/
theorem linuxPath_match_iff : regexMatch val linuxPath = true
    ↔ ∃ (comps : List Str) (trail : Str), (∀ comp ∈ comps, Component comp) ∧ MaybeSlash trail
      ∧ val = comps.flatMap (fun comp => slash :: comp) ++ trail := by
  rw [regexMatch, RegularExpression.rmatch_iff_matches', linuxPath,
    RegularExpression.matches'_mul, Language.mem_mul]
  constructor
  · rintro ⟨w, hw, trail, htrail, rfl⟩
    rw [RegularExpression.matches'_star, Language.mem_kstar] at hw
    obtain ⟨parts, rfl, hparts⟩ := hw
    obtain ⟨comps, hcomps, heq⟩ := flatten_slashed fun part h => mem_slashed.1 (hparts part h)
    exact ⟨comps, trail, hcomps, mem_maybe.1 htrail, by rw [heq]⟩
  · rintro ⟨comps, trail, hcomps, htrail, rfl⟩
    refine ⟨_, ?_, trail, mem_maybe.2 htrail, rfl⟩
    rw [RegularExpression.matches'_star, Language.mem_kstar]
    refine ⟨comps.map fun comp => slash :: comp, rfl, fun part hpart => ?_⟩
    obtain ⟨comp, hcomp, rfl⟩ := List.mem_map.1 hpart
    exact mem_slashed.2 ⟨comp, hcomps comp hcomp, rfl⟩

theorem flatMap_slash : ∀ {comps : List Str}, comps ≠ [] →
    comps.flatMap (fun comp => slash :: comp) = slash :: [slash].intercalate comps
  | [], h => absurd rfl h
  | [comp], _ => by
    rw [List.flatMap_cons, List.flatMap_nil, List.append_nil, List.intercalate_singleton]
  | comp :: comp' :: comps, _ => by
    rw [List.flatMap_cons, flatMap_slash (List.cons_ne_nil comp' comps),
      List.intercalate_cons_cons, List.append_assoc]
    rfl

/-! ## Absolute paths -/

theorem isspace_slash : isspace slash = false := by decide

theorem absolute_iff (habs : val.head? = some slash) :
    regexMatch val linuxPath = true ↔ LinuxPath val := by
  rw [linuxPath_match_iff]
  constructor
  · rintro ⟨comps, trail, hcomps, htrail, rfl⟩
    have hspace : ∀ c ∈ comps.flatMap (fun comp => slash :: comp) ++ trail, isspace c = false := by
      intro c hc
      rcases List.mem_append.1 hc with hc | hc
      · obtain ⟨comp, hcomp, hc⟩ := List.mem_flatMap.1 hc
        rcases List.mem_cons.1 hc with rfl | hc
        · exact isspace_slash
        · exact ((hcomps comp hcomp).2 c hc).2
      · rcases htrail with rfl | rfl
        · cases hc
        · rw [List.mem_singleton.1 hc]
          exact isspace_slash
    refine ⟨?_, hspace, ?_⟩
    · intro h
      rw [h] at habs
      cases habs
    by_cases hnil : comps = []
    · subst hnil
      rcases htrail with rfl | rfl
      · cases habs
      · exact .inl rfl
    · refine .inr ⟨[slash], comps, trail, .inr rfl, htrail, hnil, fun comp hcomp => ?_, ?_⟩
      · exact ⟨(hcomps comp hcomp).1, fun hmem => ((hcomps comp hcomp).2 slash hmem).1 rfl⟩
      · rw [flatMap_slash hnil]
        rfl
  · rintro ⟨-, hspace, rfl | ⟨lead, comps, trail, hlead, htrail, hnil, hcomps, rfl⟩⟩
    · exact ⟨[], [slash], by simp, .inr rfl, rfl⟩
    · rcases hlead with rfl | rfl
      · obtain ⟨c, w, hc, heq⟩ := intercalate_head hnil hcomps
        rw [List.nil_append, heq] at habs
        exact absurd (Option.some.inj habs) hc
      · have heq : [slash] ++ [slash].intercalate comps ++ trail
            = comps.flatMap (fun comp => slash :: comp) ++ trail := by
          rw [flatMap_slash hnil]
          rfl
        refine ⟨comps, trail, fun comp hcomp => ⟨(hcomps comp hcomp).1, fun c hc => ⟨?_, ?_⟩⟩,
          htrail, heq⟩
        · rintro rfl
          exact (hcomps comp hcomp).2 hc
        · refine hspace c ?_
          rw [heq]
          exact List.mem_append_left _
            (List.mem_flatMap.2 ⟨comp, hcomp, List.mem_cons_of_mem _ hc⟩)

/-! ## Relative paths -/

theorem relative_rejected (hne : val ≠ []) (hrel : val.head? ≠ some slash) :
    regexMatch val linuxPath = false := by
  rw [Bool.eq_false_iff]
  intro h
  obtain ⟨comps, trail, -, htrail, rfl⟩ := linuxPath_match_iff.1 h
  cases comps with
  | nil =>
    rcases htrail with rfl | rfl
    · exact hne rfl
    · exact hrel rfl
  | cons comp comps => exact hrel rfl

/-- No two slashes follow one another. -/
def NoDouble (w : Str) : Prop := w.IsChain fun a b => ¬ (a = slash ∧ b = slash)

theorem noDouble_iff : NoDouble val ↔ ¬ [slash, slash] <:+: val := by
  rw [NoDouble, List.isChain_iff_forall_rel_of_append_cons_cons]
  constructor
  · rintro h ⟨before, after, heq⟩
    rw [List.append_assoc] at heq
    exact h heq.symm ⟨rfl, rfl⟩
  · rintro h a b before after rfl ⟨rfl, rfl⟩
    exact h ⟨before, after, by simp⟩

/-- What does not start with a slash, and has no two in a row, is a list of components. -/
theorem exists_components : ∀ {w : Str}, w ≠ [] → w.head? ≠ some slash → NoDouble w →
    ∃ (comps : List Str) (trail : Str), MaybeSlash trail ∧ comps ≠ []
      ∧ (∀ comp ∈ comps, comp ≠ [] ∧ slash ∉ comp)
      ∧ w = [slash].intercalate comps ++ trail
  | [], hne, _, _ => absurd rfl hne
  | [c], _, hc, _ => by
    have hc' : slash ≠ c := fun heq => hc (by rw [heq]; rfl)
    exact ⟨[[c]], [], .inl rfl, by simp, by simpa using hc', by simp⟩
  | c :: d :: w, _, hc, hno => by
    have hc' : slash ≠ c := fun heq => hc (by rw [heq]; rfl)
    obtain ⟨-, hdw⟩ := List.isChain_cons_cons.1 hno
    by_cases hd : d = slash
    · subst hd
      cases w with
      | nil => exact ⟨[[c]], [slash], .inr rfl, by simp, by simpa using hc', by simp⟩
      | cons e w =>
        obtain ⟨he, hew⟩ := List.isChain_cons_cons.1 hdw
        obtain ⟨comps, trail, htrail, hnil, hcomps, heq⟩ := exists_components
          (List.cons_ne_nil e w) (fun h => he ⟨rfl, Option.some.inj h⟩) hew
        refine ⟨[c] :: comps, trail, htrail, by simp, ?_, ?_⟩
        · exact List.forall_mem_cons.2 ⟨⟨by simp, by simpa using hc'⟩, hcomps⟩
        · rw [heq, List.intercalate_cons_of_ne_nil hnil]
          simp
    · obtain ⟨comps, trail, htrail, hnil, hcomps, heq⟩ := exists_components
        (List.cons_ne_nil d w) (fun h => hd (Option.some.inj h)) hdw
      obtain ⟨comp, comps, rfl⟩ := List.exists_cons_of_ne_nil hnil
      obtain ⟨⟨-, hslash⟩, hrest⟩ := List.forall_mem_cons.1 hcomps
      refine ⟨(c :: comp) :: comps, trail, htrail, by simp, ?_, ?_⟩
      · refine List.forall_mem_cons.2 ⟨⟨by simp, fun hmem => ?_⟩, hrest⟩
        rcases List.mem_cons.1 hmem with h | h
        · exact hc' h
        · exact hslash h
      · rw [heq, List.intercalate_cons_cons_left]
        rfl

theorem component_noDouble {comp : Str} (hslash : slash ∉ comp) : NoDouble comp := by
  rw [noDouble_iff]
  rintro ⟨before, after, rfl⟩
  simp at hslash

/-- Between components there is one slash. -/
theorem components_noDouble {trail : Str} (htrail : MaybeSlash trail) :
    ∀ {comps : List Str}, comps ≠ [] → (∀ comp ∈ comps, comp ≠ [] ∧ slash ∉ comp) →
      NoDouble ([slash].intercalate comps ++ trail)
  | [], hnil, _ => absurd rfl hnil
  | [comp], _, hcomps => by
    obtain ⟨-, hslash⟩ := hcomps comp List.mem_cons_self
    rw [List.intercalate_singleton]
    refine (component_noDouble hslash).append ?_ fun a ha b _ heq => ?_
    · rcases htrail with rfl | rfl
      · exact .nil
      · exact .singleton _
    · exact hslash (heq.1 ▸ List.mem_of_getLast? ha)
  | comp :: comp' :: comps, _, hcomps => by
    obtain ⟨⟨-, hslash⟩, hrest⟩ := List.forall_mem_cons.1 hcomps
    have ih := components_noDouble htrail (List.cons_ne_nil comp' comps) hrest
    obtain ⟨c, w, hc, heq⟩ := intercalate_head (List.cons_ne_nil comp' comps) hrest
    rw [heq] at ih
    rw [List.intercalate_cons_cons, heq, List.append_assoc, List.append_assoc]
    refine (component_noDouble hslash).append ?_ fun a ha b _ heq' => ?_
    · exact List.isChain_cons_cons.2 ⟨fun h => hc h.2, ih⟩
    · exact hslash (heq'.1 ▸ List.mem_of_getLast? ha)

theorem relative_iff (hne : val ≠ []) (hrel : val.head? ≠ some slash) :
    LinuxPath val ↔ (∀ c ∈ val, isspace c = false) ∧ ¬ [slash, slash] <:+: val := by
  rw [← noDouble_iff]
  constructor
  · rintro ⟨-, hspace, rfl | ⟨lead, comps, trail, hlead, htrail, hnil, hcomps, rfl⟩⟩
    · exact absurd rfl hrel
    · rcases hlead with rfl | rfl
      · exact ⟨hspace, components_noDouble htrail hnil hcomps⟩
      · exact absurd rfl hrel
  · rintro ⟨hspace, hno⟩
    obtain ⟨comps, trail, htrail, hnil, hcomps, heq⟩ := exists_components hne hrel hno
    exact ⟨hne, hspace, .inr ⟨[], comps, trail, .inl rfl, htrail, hnil, hcomps, heq⟩⟩

/-! ## The check -/

theorem checkPath_ok_iff {conf : Config} {path : Str} (rule : PathRule)
    (hval : getRequired conf.index conf.string conf.root path = .ok val) :
    checkPath conf path rule = .ok () ↔ regexMatch val rule.pattern = true := by
  unfold checkPath
  rw [hval]
  show (if regexMatch val rule.pattern then Except.ok () else Except.error _) = _ ↔ _
  split_ifs with h <;> simp [h]

/-- By the default rules a path is checked as it is to be exactly if it is not empty, and is
absolute or no path at all: with whitespace in it, or with two slashes in a row. -/
theorem check_path_iff (conf : Config) (val : Str) (r : Str × PathRule)
    (hr : r ∈ getDefaultRules.pathRules)
    (hval : getRequired conf.index conf.string conf.root r.1 = .ok val) :
    (checkPath conf r.1 r.2 = .ok () ↔ LinuxPath val)
      ↔ val ≠ [] ∧ (val.head? = some slash ∨ (∃ c ∈ val, isspace c = true)
        ∨ [slash, slash] <:+: val) := by
  obtain rfl := List.mem_singleton.1 hr
  rw [checkPath_ok_iff _ hval]
  by_cases hne : val = []
  · have hmatch : regexMatch val linuxPath = true := by
      rw [hne]
      exact linuxPath_match_iff.2 ⟨[], [], by simp, .inl rfl, rfl⟩
    exact ⟨fun h => absurd hne (h.1 hmatch).1, fun h => absurd hne h.1⟩
  by_cases habs : val.head? = some slash
  · exact ⟨fun _ => ⟨hne, .inl habs⟩, fun _ => absolute_iff habs⟩
  · rw [relative_iff hne habs, relative_rejected hne habs]
    simp only [Bool.false_eq_true, false_iff, not_and_or, not_not, not_forall, ne_eq, hne,
      not_false_eq_true, true_and, habs, false_or, Bool.not_eq_false, exists_prop]

/-- A configuration that has `sqlite.path` and nothing else. -/
def pathConf (val : Str) : Config where
  index _ _ := none
  string := ⟨bytes "std::string", fun
    | .scalar text => .ok text
    | .null | .sequence _ | .map _ => .error .badConversion⟩
  int := ⟨bytes "int", fun _ => .error .badConversion⟩
  root := .map [(.scalar (bytes "sqlite"), .map [(.scalar (bytes "path"), .scalar val)])]

theorem getRequired_pathConf (val : Str) :
    getRequired (pathConf val).index (pathConf val).string (pathConf val).root
      (bytes "sqlite.path") = .ok val := rfl

/-- `/var/cache.db`. -/
theorem check_path_iff_absolute :
    let val := bytes "/var/cache.db"
    let r : Str × PathRule := (bytes "sqlite.path", ⟨linuxPath⟩)
    (checkPath (pathConf val) r.1 r.2 = .ok () ↔ LinuxPath val)
      ↔ val ≠ [] ∧ (val.head? = some slash ∨ (∃ c ∈ val, isspace c = true)
        ∨ [slash, slash] <:+: val) :=
  check_path_iff _ _ _ (List.mem_singleton_self _) (getRequired_pathConf _)

/-- The empty string is accepted, and `cache.db` is not. -/
theorem check_path_wrong :
    ¬ (checkPath (pathConf []) (bytes "sqlite.path") ⟨linuxPath⟩ = .ok () ↔ LinuxPath [])
      ∧ ¬ (checkPath (pathConf (bytes "cache.db")) (bytes "sqlite.path") ⟨linuxPath⟩ = .ok ()
        ↔ LinuxPath (bytes "cache.db")) := by
  rw [checkPath_ok_iff _ (getRequired_pathConf _), checkPath_ok_iff _ (getRequired_pathConf _)]
  constructor
  · intro h
    exact (h.1 (linuxPath_match_iff.2 ⟨[], [], by simp, .inl rfl, rfl⟩)).1 rfl
  · have hval : bytes "cache.db" = [0x63, 0x61, 0x63, 0x68, 0x65, 0x2e, 0x64, 0x62] := rfl
    have hrel : (bytes "cache.db").head? ≠ some slash := by
      rw [hval]
      decide
    have hpath : LinuxPath (bytes "cache.db") := by
      rw [relative_iff (by simp [hval]) hrel, hval]
      exact ⟨by decide +kernel, by decide +kernel⟩
    rw [relative_rejected (by simp [hval]) hrel]
    intro h
    cases h.2 hpath

/-! ## All checks -/

theorem seq_ok_iff {ε : Type} {x y : Except ε Unit} :
    (x >>= fun _ => y) = .ok () ↔ x = .ok () ∧ y = .ok () := by
  rcases x with e | ⟨⟩
  · exact ⟨fun h => (by cases h), fun h => h.1⟩
  · exact ⟨fun h => ⟨rfl, h⟩, fun h => h.2⟩

theorem forM_ok_iff {α ε : Type} {f : α → Except ε Unit} :
    ∀ {l : List α}, l.forM f = .ok () ↔ ∀ a ∈ l, f a = .ok ()
  | [] => ⟨fun _ _ ha => (by cases ha), fun _ => rfl⟩
  | a :: l => by
    show (f a >>= fun _ => l.forM f) = .ok () ↔ _
    rw [seq_ok_iff, forM_ok_iff, List.forall_mem_cons]

/-- A configuration is valid if it passes the check of every rule, in whatever order. -/
theorem validate_ok_iff (conf : Config) (rules : Rules) :
    validate conf rules = .ok () ↔ (∀ p ∈ rules.stringRules, checkString conf p.1 p.2 = .ok ())
      ∧ (∀ p ∈ rules.pathRules, checkPath conf p.1 p.2 = .ok ())
      ∧ (∀ p ∈ rules.hostRules, checkHost conf p.1 p.2 = .ok ())
      ∧ ∀ p ∈ rules.portRules, checkPort conf p.1 p.2 = .ok () := by
  unfold validate
  rw [seq_ok_iff, seq_ok_iff, seq_ok_iff, forM_ok_iff, forM_ok_iff, forM_ok_iff, forM_ok_iff]

end ConfigChecker

end XCache
