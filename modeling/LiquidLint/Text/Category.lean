import LiquidLint.Text.Basic

/-!
# General categories

Unicode puts every code point into one of thirty general categories, which have names of two letters.
The table is a text of runs: a letter for the category, followed by the length of the run in base
thirty-six unless it is one.
-/

namespace LiquidLint

/-- The letters of the table and the categories that they stand for. -/
def categoryLetters : List (Char × String) :=
  [('A', "Lu"), ('B', "Ll"), ('C', "Lt"), ('D', "Lm"), ('E', "Lo"), ('F', "Mn"), ('G', "Mc"),
    ('H', "Me"), ('I', "Nd"), ('J', "Nl"), ('K', "No"), ('L', "Pc"), ('M', "Pd"), ('N', "Ps"),
    ('O', "Pe"), ('P', "Pi"), ('Q', "Pf"), ('R', "Po"), ('S', "Sm"), ('T', "Sc"), ('U', "Sk"),
    ('V', "So"), ('W', "Zs"), ('X', "Zl"), ('Y', "Zp"), ('Z', "Cc"), ('!', "Cf"), ('@', "Cs"),
    ('+', "Co"), ('*', "Cn")]

/-- The lines of the table: the runs of code points of one category, from zero on. -/
def categoryTable : List String :=
  ["ZwWR3TR3NORSRMR2IaR2S3R2AqNROULUBqNSOSZxWRT4VRUVEPS!VUVSK2UBR2UKEQK3RAnSA7BoSB8ABABABABABABA",
    "BABABABABABABABABABABABABABABABABABABABABAB2ABABABABABABABAB2ABABABABABABABABABABABABABABABA",
    "BABABABABABABABA2BABAB3A2BABA2BA3B2A4BA2BA3B3A2BA2BABABA2BAB2ABA2BA3BABA2B2EAB3E4ACBACBACBAB",
    "ABABABABABABAB2ABABABABABABABABAB2ACBABA3BABABABABABABABABABABABABABABABABABABABABABABABABAB",
    "ABABABAB7A2BA2B2ABA4BABABABAB1xEBrDiU4DcUeD5U7DUDUhF34ABABDUAB*2DB3RA*4U2ARA3*A*A2BAh*A9BzAB",
    "2A3B3ABABABABABABABABABABABAB5ABSABA2B2A1fB1cABABABABABABABABABABABABABABABABABVF5H2ABABABAB",
    "ABABABABABABABABABABABABABABABABABABABABABABABA2BABABABABABAB2ABABABABABABABABABABABABABABAB",
    "ABABABABABABABABABABABABABABABABABABABABABABABABABABABABABABABABAB*A12*2DR6B15RM*2V2T*F19MFR",
    "F2RF2RF*8Er*4E4R2*b!6S3R2TR2V2FbR!R3EwDEaFlIaR4E2FE2rREF7!VF6D2F2VF4E2IaE3V2ERe*!EFEuFr*2E2h",
    "FbE*eIaExF9D2VR3D*2FT2EmF4DF9DF3DF5*2Rf*EpF3*2R*Eb*5EoUE6*!2*6F8E15DFo!FwGE1iFGFEG3F8G4FG2EF",
    "7EaF2R2IaRDEfFG2*E8*2E2*2Em*E7*E*3E4*2FEG3F4*2G2*2G2FE*8G*4E2*E3F2*2IaE2T2K6VTERF*2F2G*E6*4E",
    "2*2Em*E7*E2*E2*E2*2F*G3F2*4F2*2F3*3F*7E4*E*7IaF2E3FR*aF2G*E9*E3*Em*E7*E2*E5*2FEG3F5*F2G*G2F*",
    "2E*fE2F2*2IaRT*7EF6*FG2*E8*2E2*2Em*E7*E2*E5*2FEGFGF4*2G2*2G2F*7F2G*4E2*E3F2*2IaVEK6*aFE*E6*3",
    "E3*E4*3E2*E*E2*3E2*3E3*3Ec*4G2FG2*3G3*G3F*2E*6G*eIaK3V6TV*5FG3FE8*E3*En*Eg*2FEF3G4*F3*F4*7F2",
    "*E3*2E*2E2F2*2Ia*7RK7VEFG2RE8*E3*En*Ea*E5*2FEGFG5*FG2*G2F2*7G2*6E2*E2F2*2Ia*E2*dF2G2E9*E3*E1",
    "5F2EG3F4*G3*G3FEV*4E3GK7E3F2*2IaK9VE6*FG2*Ei*3Eo*E9*E*2E7*3F*4G3F3*F*G8*6Ia*2G2R*cE1cFE2F7*4",
    "TE6DF8RIaR2*11E2*E*E5*Eo*E*EaFE2F9E*2E5*D*F6*2Ia*2E4*wEV3RfVRV3F2V6IaKaVFVFVFNONOG2E8*E10*4F",
    "eGF5RF2E5Fb*F10*V8FV6*V2R5V4R2*11E17G2F4GF6GF2G2F2EIaR6E6G2F2E4F3EG3E2G7E3F4EdFG2F2G6FEGIaG3",
    "FV2A12*A*5A*2B17RDB3E95*E4*2E7*E*E4*2E15*E4*2Ex*E4*2E7*E*E4*2Ef*E1l*E4*2E1v*2F3R9Kk*3EgVa*6A",
    "2e*2B6*2MEh8VREhWEqNO*3E23R3J3E8*7EiF3G*9EjF2GR2*9EiF2*cEd*E3*F2*cE1gF2GF7G8FG2FbR3DR3TEF*2I",
    "a*6Ka*6R6MR4F3!FIa*6EzDE1h*7E5F2EyFE*5E1y*aEv*F3G4F2G3*4G2FG6F3*4V*3R2IaEu*2E5*bE18*4Eq*6IaK",
    "*3VyEnF2G2F*2R2E1hGFGF7*FGFG2F8G6Fa*2FIa*6Ia*6R7DR6*2FeHFg*1dF4GE1bFGF5GFG5FG2E8*3IaR7VaF9V9",
    "R2*F2GEuGF4G2F2GF3E2IaE18FGF2G3FGF3G2*8R4E10G8F8G2F2*3R5Ia*3E3IaEuD6R2B9*7A17*2A3R8*8F3RFdGF",
    "7E4FE6FE2GF2E*5B18D1rBdDByD11F1sABABABABABABABABABABABABABABABABABABABABABABABABABABABABABAB",
    "ABABABABABABABABABABABABABABABABABABABABABABABABABABABABABABABABABABABABABABABABABABABABAB9A",
    "BABABABABABABABABABABABABABABABABABABABABABABABABABABABABABABABABABABABABABABABABABABABABABA",
    "BABAB9A8B6*2A6*2B8A8B8A8B6*2A6*2B8*A*A*A*AB8A8Be*2B8C8B8C8B8C8B5*B2A4CUBU3B3*B2A4CU3B4*2B2A4",
    "*U3B8A5U3*2B3*B2A4CU2*Wb!5M6R2PQNP2QNPR8XY!5WR9PQR4L2R3SNORbSRLRaW!5*!aKD*2K6S3NODKaS3NO*Dd*",
    "3Tx*fFdH4FH3Fc*fV2AV4AV2BA3B2A3BVAV2SA5V6AVAVAVA4VBA4BE4BV2B2A2S5AB4VSV2BVKgJzABJ4KV2*4S5V5S",
    "2V4SV2SV2SV7SVvS2V2SVSVvS7gV8NONOVkS2V7NOV29SVuSpV14S6V1x*pVb*lK1oV26KmV53SV9SV1iS8V33SV6wNO",
    "NONONONONONOKuV18S5NOSvNONONONONOSgV74S3nNONONONONONONONONONONOS1rNONOSwNOS76V1cSlV2S6V13*2V",
    "w*V2xA1cB1cABA3B2ABABABA4BAB2AB6D2A3BABABABABABABABABABABABABABABABABABABABABABABABABABABABA",
    "BABABABABABABABABABABABABABABABABABABABABAB2V6ABABF3AB*5R4KR2B12*B*5B*2E1k*7DR*eFEn*9E7*E7*E",
    "7*E7*E7*E7*E7*E7*FwR2PQPQR3PQRPQR9MR2MRPQR2PQNONONONOR5DRaM2R4MRNRdV2R3NONONONOM*yVq*V2h*cV5",
    "y*qVc*4WR3VDEJNONONONONOV2NONONONOMNO2VJ9F4G2MD5V2J3DERV2*E2e*2F2U2D2EME2iRD3E*5E17*E2m*V2K4",
    "VaEwV10*cEgVv*KaVuK8VKfVwKaV13KfV8wE534V1sEg7pDEvr*3V1j*9E14D6R2E7gDR3EgIaE2*kABABABABABABAB",
    "ABABABABABABABABABABABABABABABABEFH3RFaRDABABABABABABABABABABABABABABD2F2E1yJaF2R6*8UnD9U2AB",
    "ABABABABABAB3ABABABABABABABABABABABABABABABABABABABABABABABABABABABABABABABDB8ABABA2BABABABA",
    "BDU2ABABEABAB3ABABABABABABABABABABA5BA5BABABABABABABABA4BAB*5AB*B*BABAB*oD3ABED2BE7FE3FE4FEn",
    "G2F2GV4F*3K6V2TV*6E1gR4*8G2E1eGgF2*8R2Ia*6FiE6R3ERE2FIaEsF8R2EnFbG2*bREt*3F3GE1bFG2F4G2F2G3R",
    "d*DIa*4R2E5FDE9IaE5*E15F6G2F2G2F2*9E3FE8FG*2Ia*2R4EgDE6V3EGFGE1eFEF3E2F2E5F2EFE*oE2DR2EbGF2G",
    "2R2ED2GF*aE6*2E6*2E6*9E7*E7*B17UD4B9DU2*4B28EzG2FG2FG2RGF*2Ia*6E8mc*cEn*4E1d*4@1kw+4xsEa6*2E",
    "2y*12B7*cB5*5EFEaSEd*E5*E*E2*E2*E30Uh*gEa3ONVgE1s*2E1i*7V*wEcTV3FgR7NOR*6FgRM2L2NONONONONONO",
    "NONOR2NOR4L3R3*R4MNONONOR3SMS3*RTR2*4E5*E3r*2!*R3TR3NORSRMR2IaR2S3R2AqNROULUBqNSOSNORNOR2EaD",
    "E19D2Ev*3E6*2E6*2E6*2E3*3T2SUVT2*VS4V2*a!3V2*2Ec*Eq*Ej*E2*Ef*2Ee*yE3f*5R3*4K19*3V9J1hK4VhK2V",
    "3*Vd*3V*1bV19F*3mEt*3E1d*fFKr*4EwK4*9EkJE8J*5E12F5*5Eu*RE10*4E8RJ5*16A14B14E26*2Ia*6A10*4B10",
    "*4E14*8E1g*bRAb*Af*A7*A2*Bb*Bf*B7*B2*1vE8n*9Em*aE8*oD6*D16*D9*1xE6*2E*E18*E2*3E*2En*RK8EnV2K",
    "7Ev*8K9*1cEj*E2*5K5EmK6*3REq*5R*1sE1k*4K2E2Kg*2K1aEF3*F2*5F4E4*E3*Et*2F3*4FK9*7R9*7EtK2REtK3",
    "*wE8VEsF2*4K5R7*9E1i*3R7Em*2K8Ej*5K8Ei*7R4*cK7*28E21*1jA1f*dB1f*7K6E10F4*8Ia*86Kv*E16*F2M*2E",
    "2*26EtKaE*8EmFbK4R5*mEiF4R4*12ElK7*kEn*9GFGE1hFfR7*4KkIaFE2F2E*9F3GE19G3F4G2F2R2!R4F*a!*2Ep*",
    "7Ia*6F3E10F5GF8*IaR4EG2E*8EzFR2E*9F2GE1cG3F9G2E4R4F4RGFIaERER3*Kk*bEi*EpG3F3G2FGF2R6F*1tE7*E",
    "*E4*Ef*EaR*6E1bFG3F8*5Ia*6F2G2*E8*2E2*2Em*E7*E2*E5*F2EG2FG4*2G2*2G3*2E*6G*5E5G2*2F7*3F5*3vE1",
    "hG3F8G2F3GFE4R5IaR2*RFE3*uE1cG3F6GFG4F2GF2E2RE*8Ia*4mE1bG3F4*2G4F2GF2RnE4F2*yE1cG3F8G2FGF2R3",
    "E*bIa*6Rd*jE17FGFG2F6GFER*6Ia*1iEr*2F3G2F4GF5*4IaK2R3VE7*55E18G3F9GF2R*2sAwBwIaK9*cE8*2E*2E8",
    "*E2*EoG6*G2*2F2GFEGEGFR3*9Ia*1yE8*2E13G3F4*2F2G4FEREG*rEFaE14F6GEF4R8F*8EF6G2F3E1aFdGF2R3ER5",
    "*dE21*7bE9*E11GF7*F6GFER5*aIaKj*3R2Eu*2Fm*GF7GF2GF2*21E7*E2*E12F6*3F*F2*F7EF*8Ia*6E6*E2*EwG5",
    "*F2*G2FGFE*7Ia*8mEjF2G2R2*53E*fKlV8T4Vh*dREpm*2uJ33*R5*bE5g*218E2pR2*dEtr*!9*347Eg7*6ntEft*7",
    "Ev*Ia*4R2E27*Ia*6Eu*2F5R*aE1cF7R5V4D4RV*aIa*K7*El*5Ej*j4AwBwKnR4*2tE23*4FEG1j*7F4Dd*1sD2RDF*",
    "bG2*eE4qg*8Eye*16E9*6w7D4*D7*D2*E83*19E3*hE4*8Eb0*1s4E2z*5Ed*3E9*7Ea*2VF2R!4*3mkF1a*2Fn*9V38",
    "*1oV6u*aV13*2V1oG2F3V3G6!8F8V2F7VuF4V1p*lV1uF3V*4aKk*cV2f*9Kp*3rAqBqAqB7*BiAqBqA*A2*2A*2A2*2",
    "A4*A8B4*B*B7*BbAqBqA2*A4*2A8*A7*BqA2*A4*A5*A*3A7*BqAqBqAqBqAqBqAqBqAqBqAqBs*2ApSBpSB6ApSBpSB",
    "6ApSBpSB6ApSBpSB6ApSBpSB6AB*2I1eVe8F1jV4F1eV8FVeFV2R5*fF5*Ff*uoBaEBk*69F7*Fh*2F7*F2*F5*5xE19",
    "*3F7D7*2Ia*4EV*8wEuF*hE18F4Ia*5T*yoE7*E4*E2*Ef*E5h*2K9F7*15AyByF7D*4Ia*4R2*ltK1nVK3TK4*24K19",
    "VKf*5eE4*Er*E2*E*2E*Ea*E4*E*E*6E*4E*E*E*E3*E2*E*2E*E*E*E*E*E2*E*2E4*E7*E4*E4*E*Ea*Eh*5E3*E5*",
    "Eh*1gS2*7iV18*4V2s*cVf*2Vf*Vf*V11*aKdV4h*1kVt*dV18*4V9*7V2*eV6*4aV6zU5Vk8*5Vg*3Vd*3V38*cV2h*",
    "7Vc*4V*fVc*4V1k*8Va*6V14*8Vu*2V2*26V9g*cVe*2V5*3V5*3V7*9Vt*3Vb*5V6*aVa*6V8*8V7*9V43*V1j*11Ia",
    "*smEwyo*wE37d*7E66*2E4g2*eE5rl*2e7Ef2*15uE3t7*fcfq!*u!2o*3kF6o*1e6o+1eke*2+1eke*2"]

/-- The value of a digit in base thirty-six; none for the letter of a category. -/
def runDigit? (c : Char) : Option Nat :=
  if c.isDigit then some (c.toNat - '0'.toNat)
  else if 'a' ≤ c && c ≤ 'z' then some (c.toNat - 'a'.toNat + 10)
  else none

/-- A run of the table: its letter, and its length once a digit of it was read. -/
structure CategoryRun where
  letter : Char
  length : Option Nat := none
deriving Repr

/-- The runs of a table. -/
def categoryRuns (table : Text) : List CategoryRun :=
  (table.foldl
    (fun runs c =>
      match runDigit? c, runs with
      | some d, run :: rest => { run with length := some (run.length.getD 0 * 36 + d) } :: rest
      | some _, [] => []
      | none, runs => ⟨c, none⟩ :: runs)
    []).reverse

/-- The first and last code points of the runs with one of the given letters; the first run starts at
`start`. -/
def rangesFrom (letters : List Char) (start : Nat) : List CategoryRun → List (Nat × Nat)
  | [] => []
  | run :: rest =>
    let next := start + run.length.getD 1
    if letters.contains run.letter then (start, next - 1) :: rangesFrom letters next rest
    else rangesFrom letters next rest

/-- The first and last code points of the ranges that make up some categories. -/
def categoryRanges (categories : List String) : List (Nat × Nat) :=
  let letters := (categoryLetters.filter fun (_, name) => categories.contains name).map (·.1)
  rangesFrom letters 0 (categoryRuns (categoryTable.flatMap String.toList))

end LiquidLint
