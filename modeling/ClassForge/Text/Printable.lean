namespace ClassForge

def packedRuns : List String := [
  "bIMBwWeIICGEHBBBUBiQHgKBbMCbYCDbUBBBCBCBJbBEGRKLBBbUVQBdXIBGCCBEbGCBBbEbDdLLBObRJHDYEBJBDBHPBZF",
  "BBLFbGQbQcFcDBBBEIEBDHKCbDBCBICCCWBHBBDEDBBCGCCCBBNCBDEYFBBGECCWBHBCBCBCEDYEBBHKCDBBMBBJBDBWBHB",
  "CBFDEIBBCDBPCEMHBICBICCCWBHBCBFDBCBGCCCPCBDESLBBGDDBEDCBBBCDCDDDMFBBCDDBDDBVVGDBIBDBXBQDBDETDBC",
  "CCEKHKBLBDBXBKBFDCCBBCXDBCEKBDOLBDBbPCBBCFDBDBCEDBKEbACCBSDYBJBBCHJCGHHKCDMbWBCLIINbLCBBBFBYBBB",
  "KBCJBCFBBJKCEbGYCbBBBBBBOBbKSBFBCFbXIBGBNbLbTEBGBCCCZCEDQENBCCGBPBbOBBFBCfNCiYBECHBBBECbPBECbHB",
  "ECHBBBECPBcFBECcPFbDDbAGdICGCyQBbCDdLHSNTDCJSONBDPcACBHIBCLJDKGKGLFKGdLHFCbIBBFcSKbFEECDECBGHBD",
  "bQCFLbSEbAGLDcFCCDcEBBJBBCIGNKGKGOdIbWKEDIBbDJMCbGECGcEBBCDBBNbWICFPDcKFbRCLLBNBHEBGBDCBFhKcMkS",
  "CGCbMCGCIBBBBBBBbFCcBBPBOCGBTCDBJRYIbVRCCbBBNDbIcKfKEzQWLVcrSCoNDCFbTBBFBCcEHCPXJHBHBHBHBHBHBHB",
  "HbHdQbIbABdLMiGbAQBbPGQBdIEdXFbRBbZBbQBdIJbWBbriRDcDJnKUbVEBKbGCdCCGIiNURBDBEBZCFEKGcEIcQKMYNBb",
  "MIZLBMbEGbWBCECCCBNBLEHBZBbPGCCCLDBIBBCKCbGBbZBBDCCFCBBBYRCILGCGCGJHBHBcIEeNBCBEDKGqnSMXEbXmnCo",
  "CCeCbMHMFFBBYBFBBBCBCBzAbGQQKWbJBTBEEFBfFEgDBbEDGCGCGCDDHBHNCCMBbABTBCBPCObIeTFDEbTDdKBNDBbVbTf",
  "BbDDbXQbBEbKJbEFbMKbEBbLEObQgCCKGbKEbKEbOIcALMBPBHBCBLBPBHBCDcAMlZJWKIYGBbQBJcRGCBBbSBCDBCXBcUI",
  "JbWTBCFbHDbBFbBbMcEEUCbVPEBDBbDKJHJHcMbGbLGMJcCDbDCbBFbAHEMHdCcVcDbZNbZHbQMKGbMIYICiAbFBbQDBCCQ",
  "GIJbNbOIWLJWSEEbMbCUXJBBcCPHEbEBCCBMbXECCCBEOZHKJbKFBJSIbJBDLcAJBBIECBQBULSBbCDCEGBCcLHBBBEBPBL",
  "GbVBDNKICBICCCWBHBCBFDBBBBECCCCDBMHbCKBBCBBbMBBBCPBBCDBBDBCbNcEICDBBVBBBDbEbWBCGBBCBBCBCEIKgKbV",
  "BCGECBCbBbKbZICBBCELKGNTbRBBBCICGKGUbCbBDBBCEBJXhDbVJBCBdWdFMICBCIBCBYBFBCGEBDJKcSICbQIEBEbBBKb",
  "OGCEIJBGCDbUNBCJNcVHKdJBDBBBdKbIOKGJBbMOBBGKbDDbGZBHBCBcXHBCBbMVBJKGGBCBbLECBBBBHKGbSEKjMTCEJPB",
  "bKICDXdIBPbYNbjNdYeHBFLhOdxKdVNbpGRGZfxRFwLkdDbEMDDKcoSvXHbFBKEdDBKGbEHBKbWHPKKBHBVFTqQcGhQdNFZ",
  "CZbScXFcELNcMEOFJkxYbPbGdTeLmwREBHBCBlFPBbDDCBOEIpGdkUeDFNDJHKCBCBfvKjTDqUGXPRdReMcIjMKbNCcIFDW",
  "CHbEEcJVcODBeSUMUMdJJZfFdHBcTBCCBCCCEBMBBBHBcNBECIBHBbCBEBFBBDHBnCClGCvQcDEbYIBOBHbrWbFGGkBcKfQ",
  "bTKHCKECmIbESbSEKFBrWbCEKiGbECLEBhKbFBDBCBHCFJCiQHBEBCBPBhPCJbWcQHBEKECbeFcQcYcJhMEBbBBCBBCBBKB",
  "EBBBBGBEBBBBBBDBCBBCBBBBBBBBBBCBBCEBHBEBEBBBKBRFDBFBRcACkKbSEdWMPCPBPBbLKgScEbDNbSEJHCOGfYblXDR",
  "DNDiKGMEBPMEcEIKGbOIbECMECOJbNnGIOCNDLDcFBBEQCMEKHfRBdZbnPclfCbGgmOCioCClbLPxYdqWuWcfYhhZFmoO"]

def visibilityRuns : List Nat :=
  let step := fun ((runs, high) : List Nat × Nat) (c : Char) =>
    if c.isUpper then ((26 * high + (c.toNat - 65)) :: runs, 0) else (runs, 26 * high + (c.toNat - 97))
  (((String.join packedRuns).foldl step ([], 0)).1).reverse

def isHidden (hidden : Bool) : List Nat → Nat → Bool
  | [], _ => hidden
  | run :: runs, distance =>
    if distance < run then hidden else isHidden (!hidden) runs (distance - run)

def isPrintable (c : Char) : Bool :=
  if c.toNat < 0x20 then false
  else if c.toNat < 0x7F then true
  else !isHidden true visibilityRuns (c.toNat - 0x7F)

end ClassForge
