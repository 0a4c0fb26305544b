import XCache.Proofs.ConfigParser
import XCache.Proofs.ConfigChecker

/-!
# What the default rules accept

An octet of the pattern for IPv4 is a number up to 255 in at most three digits, leading zeros
included (`mem_octet`). With what the other patterns and the bounds come to, `validate` accepts a
tree exactly if each of the four paths leads to a value of its type that is as it is to be.
-/

namespace XCache

namespace ConfigChecker

open ConfigParser Regex

variable {val w : Str}

/-! ## Characters -/

theorem mem_one {p : UInt8 → Bool} : w ∈ (charClass p).matches' ↔ ∃ c, p c = true ∧ w = [c] := by
  rw [charClass, mem_oneOf]
  simp only [mem_chars]

/-- What a character is worth as a digit. -/
def digit (c : UInt8) : ℕ := c.toNat - 48

/-- What digits are worth. -/
def decimal (w : Str) : ℕ := w.foldl (fun n c => 10 * n + digit c) 0

theorem range_iff {a b c : UInt8} :
    range a b c = true ↔ a.toNat ≤ c.toNat ∧ c.toNat ≤ b.toNat := by
  simp [range, UInt8.le_iff_toNat_le]

theorem isDigit_iff {c : UInt8} : isDigit c = true ↔ 48 ≤ c.toNat ∧ c.toNat ≤ 57 := range_iff

/-! ## IPv4 -/

/-- A number up to 255, in at most three digits. -/
structure Octet (w : Str) : Prop where
  nonempty : w ≠ []
  length : w.length ≤ 3
  digits : ∀ c ∈ w, isDigit c = true
  le : decimal w ≤ 255

/-- Four of them, with a dot between each two. -/
def Ipv4 (val : Str) : Prop :=
  ∃ octets : List Str, octets.length = 4 ∧ (∀ w ∈ octets, Octet w)
    ∧ val = [dot].intercalate octets

/-- The three parts of the pattern. -/
theorem mem_octet_parts : w ∈ octet.matches' ↔
    (∃ c, range 0x30 0x35 c = true ∧ w = [0x32, 0x35, c])
      ∨ (∃ c d, range 0x30 0x34 c = true ∧ isDigit d = true ∧ w = [0x32, c, d])
      ∨ ∃ a b c, (a = [] ∨ ∃ x, range 0x30 0x31 x = true ∧ a = [x])
        ∧ (b = [] ∨ ∃ y, isDigit y = true ∧ b = [y]) ∧ isDigit c = true ∧ w = a ++ b ++ [c] := by
  have h25 : bytes "25" = [0x32, 0x35] := rfl
  have h2 : bytes "2" = [0x32] := rfl
  simp only [octet, RegularExpression.matches'_add, RegularExpression.matches'_mul,
    Language.mem_add, Language.mem_mul, mem_word, mem_one, mem_maybe, h25, h2, or_assoc]
  refine or_congr ⟨?_, ?_⟩ (or_congr ⟨?_, ?_⟩ ⟨?_, ?_⟩)
  · rintro ⟨_, rfl, _, ⟨c, hc, rfl⟩, rfl⟩
    exact ⟨c, hc, rfl⟩
  · rintro ⟨c, hc, rfl⟩
    exact ⟨_, rfl, _, ⟨c, hc, rfl⟩, rfl⟩
  · rintro ⟨_, ⟨_, rfl, _, ⟨c, hc, rfl⟩, rfl⟩, _, ⟨d, hd, rfl⟩, rfl⟩
    exact ⟨c, d, hc, hd, rfl⟩
  · rintro ⟨c, d, hc, hd, rfl⟩
    exact ⟨_, ⟨_, rfl, _, ⟨c, hc, rfl⟩, rfl⟩, _, ⟨d, hd, rfl⟩, rfl⟩
  · rintro ⟨_, ⟨a, ha, b, hb, rfl⟩, _, ⟨c, hc, rfl⟩, rfl⟩
    exact ⟨a, b, c, ha, hb, hc, rfl⟩
  · rintro ⟨a, b, c, ha, hb, hc, rfl⟩
    exact ⟨_, ⟨a, ha, b, hb, rfl⟩, _, ⟨c, hc, rfl⟩, rfl⟩

theorem octet_one {c : UInt8} (hc : isDigit c = true) : Octet [c] where
  nonempty := by simp
  length := by simp
  digits := by simpa using hc
  le := by
    rw [isDigit_iff] at hc
    simp only [decimal, digit, List.foldl_cons, List.foldl_nil]
    omega

theorem octet_two {c d : UInt8} (hc : isDigit c = true) (hd : isDigit d = true) : Octet [c, d] where
  nonempty := by simp
  length := by simp
  digits := by simp [hc, hd]
  le := by
    rw [isDigit_iff] at hc hd
    simp only [decimal, digit, List.foldl_cons, List.foldl_nil]
    omega

theorem octet_three_iff {c d e : UInt8} : Octet [c, d, e] ↔ isDigit c = true ∧ isDigit d = true
    ∧ isDigit e = true ∧ 100 * digit c + 10 * digit d + digit e ≤ 255 := by
  have hdecimal : decimal [c, d, e] = 100 * digit c + 10 * digit d + digit e := by
    simp only [decimal, List.foldl_cons, List.foldl_nil]
    omega
  constructor
  · rintro ⟨-, -, hdigits, hle⟩
    rw [hdecimal] at hle
    exact ⟨hdigits c (by simp), hdigits d (by simp), hdigits e (by simp), hle⟩
  · rintro ⟨hc, hd, he, hle⟩
    exact ⟨by simp, by simp, by simp [hc, hd, he], hdecimal ▸ hle⟩

/-- A number of three digits starts with 0 or 1, or with 2 and 0 to 4, or with 25. -/
theorem octet_three_cases {c d e : UInt8} (h : Octet [c, d, e]) :
    range 0x30 0x31 c = true ∨ c = 0x32 ∧ (range 0x30 0x34 d = true
      ∨ d = 0x35 ∧ range 0x30 0x35 e = true) := by
  obtain ⟨hc, hd, he, hle⟩ := octet_three_iff.1 h
  rw [isDigit_iff] at hc hd he
  simp only [range_iff, ← UInt8.toNat_inj, UInt8.reduceToNat]
  unfold digit at hle
  omega

theorem mem_octet : w ∈ octet.matches' ↔ Octet w := by
  rw [mem_octet_parts]
  constructor
  · rintro (⟨c, hc, rfl⟩ | ⟨c, d, hc, hd, rfl⟩ | ⟨a, b, c, ha, hb, hc, rfl⟩)
    · simp only [octet_three_iff, isDigit_iff, digit, range_iff, UInt8.reduceToNat] at hc ⊢
      omega
    · simp only [octet_three_iff, isDigit_iff, digit, range_iff, UInt8.reduceToNat] at hc hd ⊢
      omega
    · rcases ha with rfl | ⟨x, hx, rfl⟩ <;> rcases hb with rfl | ⟨y, hy, rfl⟩
      · exact octet_one hc
      · exact octet_two hy hc
      · refine octet_two ?_ hc
        simp only [isDigit_iff, range_iff, UInt8.reduceToNat] at hx ⊢
        omega
      · refine octet_three_iff.2 ?_
        simp only [isDigit_iff, digit, range_iff, UInt8.reduceToNat] at hx hy hc ⊢
        omega
  · intro h
    rcases w with _ | ⟨c, _ | ⟨d, _ | ⟨e, _ | ⟨f, w⟩⟩⟩⟩
    · exact absurd rfl h.nonempty
    · exact .inr (.inr ⟨[], [], c, .inl rfl, .inl rfl, h.digits c (by simp), rfl⟩)
    · exact .inr (.inr ⟨[], [c], d, .inl rfl, .inr ⟨c, h.digits c (by simp), rfl⟩,
        h.digits d (by simp), rfl⟩)
    · have hd : isDigit d = true := h.digits d (by simp)
      have he : isDigit e = true := h.digits e (by simp)
      obtain hc | ⟨rfl, hd' | ⟨rfl, he'⟩⟩ := octet_three_cases h
      · exact .inr (.inr ⟨[c], [d], e, .inr ⟨c, hc, rfl⟩, .inr ⟨d, hd, rfl⟩, he, rfl⟩)
      · exact .inr (.inl ⟨d, e, hd', he, rfl⟩)
      · exact .inl ⟨e, he', rfl⟩
    · have hlength := h.length
      simp only [List.length_cons] at hlength
      omega

theorem ipv4_match_iff : regexMatch val ipv4 = true ↔ Ipv4 val := by
  rw [regexMatch, RegularExpression.rmatch_iff_matches', ipv4, mem_separated]
  simp only [mem_octet]
  exact Iff.rfl

/-! ## IPv6 -/

def isHexOrColon (c : UInt8) : Bool :=
  isDigit c || range 0x61 0x66 c || range 0x41 0x46 c || c = 0x3a

/-- Hexadecimal digits and colons, with a bracket before them or not, and one behind or not. -/
def Ipv6 (val : Str) : Prop :=
  ∃ lead body trail : Str, (lead = [] ∨ lead = [0x5b]) ∧ (trail = [] ∨ trail = [0x5d])
    ∧ body ≠ [] ∧ (∀ c ∈ body, isHexOrColon c = true) ∧ val = lead ++ body ++ trail

theorem ipv6_match_iff : regexMatch val ipv6 = true ↔ Ipv6 val := by
  rw [regexMatch, RegularExpression.rmatch_iff_matches', ipv6, RegularExpression.matches'_mul,
    RegularExpression.matches'_mul, Language.mem_mul]
  constructor
  · rintro ⟨_, ⟨lead, hlead, body, hbody, rfl⟩, trail, htrail, rfl⟩
    obtain ⟨hne, hall⟩ := mem_charClass.1 hbody
    exact ⟨lead, body, trail, mem_maybe.1 hlead, mem_maybe.1 htrail, hne, hall, rfl⟩
  · rintro ⟨lead, body, trail, hlead, htrail, hne, hall, rfl⟩
    exact ⟨_, ⟨lead, mem_maybe.2 hlead, body, mem_charClass.2 ⟨hne, hall⟩, rfl⟩, trail,
      mem_maybe.2 htrail, rfl⟩

/-! ## The tree -/

/-- A path of the configuration leads to a value of the type that is as it is to be. -/
def Has {T : Type} (conf : Config) (elem : Element T) (path : String) (P : T → Prop) : Prop :=
  ∃ v x, Reaches conf.index conf.root (segments (bytes path)) v ∧ elem.as v = .ok x ∧ P x

theorem getRequired_ok_iff {T : Type} (conf : Config) (elem : Element T) (path : Str) (x : T) :
    getRequired conf.index elem conf.root path = .ok x
      ↔ ∃ v, Reaches conf.index conf.root (segments path) v ∧ elem.as v = .ok x := by
  unfold getRequired ConfigParser.find
  obtain ⟨-, hwalk⟩ | ⟨-, hnone, hwalk⟩ | ⟨-, v, hv, hwalk⟩ :=
    walk_cases conf.index conf.root (segments path)
  · rw [hwalk]
    refine ⟨fun h => (by cases h), fun ⟨v, h, _⟩ => ?_⟩
    rw [walk_some.2 h] at hwalk
    cases hwalk
  · rw [hwalk]
    exact ⟨fun h => (by cases h), fun ⟨v, h, _⟩ => absurd h (hnone v)⟩
  · rw [hwalk]
    simp only [hv, exists_eq_left]
    show convert elem _ v = .ok x ↔ _
    rcases has : elem.as v with e | y
    · obtain ⟨err, heq⟩ := (convert_returns elem _ v).2 e has
      rw [heq]
      exact ⟨fun h => (by cases h), fun h => (by cases h)⟩
    · rw [(convert_returns elem _ v).1 y has, Except.ok.injEq, Except.ok.injEq]

/-- A check of a value that is required. -/
theorem has_iff {T : Type} {conf : Config} {elem : Element T} {path : String}
    {check : T → Except Exception Unit} {P : T → Prop} (h : ∀ x, check x = .ok () ↔ P x) :
    (getRequired conf.index elem conf.root (bytes path) >>= check) = .ok ()
      ↔ Has conf elem path P := by
  unfold Has
  constructor
  · intro hok
    rcases hval : getRequired conf.index elem conf.root (bytes path) with e | x
    · rw [hval] at hok
      cases hok
    · rw [hval] at hok
      obtain ⟨v, hv, has⟩ := (getRequired_ok_iff conf elem (bytes path) x).1 hval
      exact ⟨v, x, hv, has, (h x).1 hok⟩
  · rintro ⟨v, x, hv, has, hP⟩
    rw [(getRequired_ok_iff conf elem (bytes path) x).2 ⟨v, hv, has⟩]
    exact (h x).2 hP

/-- From 1 to 50 bytes, with no whitespace at either end. -/
def Name (val : Str) : Prop :=
  1 ≤ val.length ∧ val.length ≤ 50 ∧ (∀ c, val.head? = some c → isspace c = false)
    ∧ ∀ c, val.getLast? = some c → isspace c = false

def Host (val : Str) : Prop := val = bytes "localhost" ∨ Ipv4 val ∨ Ipv6 val

theorem checkString_iff (conf : Config) :
    checkString conf (bytes "app.name") ⟨1, 50, true⟩ = .ok ()
      ↔ Has conf conf.string "app.name" Name := by
  refine has_iff fun val => ?_
  dsimp only
  unfold Name
  split_ifs with hlength hspace
  · exact iff_of_false nofun (by omega)
  · refine iff_of_false nofun fun h => ?_
    simp only [Bool.true_and, Bool.or_eq_true, Option.any_eq_true] at hspace
    rcases hspace with ⟨c, hc, hs⟩ | ⟨c, hc, hs⟩
    · exact Bool.false_ne_true ((h.2.2.1 c hc).symm.trans hs)
    · exact Bool.false_ne_true ((h.2.2.2 c hc).symm.trans hs)
  · refine iff_of_true rfl ⟨by omega, by omega, fun c hc => ?_, fun c hc => ?_⟩
    · by_contra hs
      exact hspace (by simp [hc, hs])
    · by_contra hs
      exact hspace (by simp [hc, hs])

theorem checkPath_iff (conf : Config) :
    checkPath conf (bytes "sqlite.path") ⟨linuxPath⟩ = .ok ()
      ↔ Has conf conf.string "sqlite.path" fun val =>
        val = [] ∨ val.head? = some slash ∧ LinuxPath val := by
  refine has_iff fun val => ?_
  have hmatch : regexMatch val linuxPath = true
      ↔ val = [] ∨ val.head? = some slash ∧ LinuxPath val := by
    by_cases hne : val = []
    · exact iff_of_true (linuxPath_match_iff.2 ⟨[], [], by simp, .inl rfl, hne⟩) (.inl hne)
    by_cases habs : val.head? = some slash
    · rw [absolute_iff habs]
      exact ⟨fun h => .inr ⟨habs, h⟩, fun h => (h.resolve_left hne).2⟩
    · rw [relative_rejected hne habs]
      exact iff_of_false nofun fun h => habs (h.resolve_left hne).1
  split_ifs with h
  · exact iff_of_true rfl (hmatch.1 h)
  · exact iff_of_false nofun (mt hmatch.2 h)

theorem checkHost_iff (conf : Config) :
    checkHost conf (bytes "redis.host") ⟨true, ipv4, ipv6⟩ = .ok ()
      ↔ Has conf conf.string "redis.host" Host := by
  refine has_iff fun val => ?_
  unfold Host
  rw [← ipv4_match_iff, ← ipv6_match_iff]
  by_cases hlocal : val = bytes "localhost"
  · exact iff_of_true (by rw [hlocal]; rfl) (.inl hlocal)
  · simp only [hlocal, decide_false, Bool.and_false, Bool.false_eq_true, if_false, false_or,
      ← Bool.or_eq_true]
    split_ifs with h
    · exact iff_of_true rfl h
    · exact iff_of_false nofun h

theorem checkPort_iff (conf : Config) :
    checkPort conf (bytes "redis.port") ⟨1, 65535⟩ = .ok ()
      ↔ Has conf conf.int "redis.port" fun val => 1 ≤ val ∧ val ≤ 65535 := by
  refine has_iff fun val => ?_
  dsimp only
  split_ifs with h
  · exact iff_of_false nofun (by omega)
  · exact iff_of_true rfl (by omega)

/-- `validate` accepts, by the default rules, the trees in which the four paths lead to a name, a
path that is absolute or empty, a host and a port, and no others. -/
theorem validate_accepts_iff (conf : Config) :
    validate conf getDefaultRules = .ok () ↔ Has conf conf.string "app.name" Name
      ∧ Has conf conf.string "sqlite.path"
          (fun val => val = [] ∨ val.head? = some slash ∧ LinuxPath val)
      ∧ Has conf conf.string "redis.host" Host
      ∧ Has conf conf.int "redis.port" fun val => 1 ≤ val ∧ val ≤ 65535 := by
  rw [validate_ok_iff, ← checkString_iff, ← checkPath_iff, ← checkHost_iff, ← checkPort_iff]
  simp only [getDefaultRules, List.mem_singleton, forall_eq]

end ConfigChecker

end XCache
